import Quilibrium.Theorems.Hypergraph

/-! Replicas of a hypergraph. If the bytes of every hyperedge are those of its committed tree, the sets depend only on
    which operations were applied. Otherwise a second `Add` stores other bytes. -/

namespace Quilibrium
open Radix Function Except List Bindings

/-! ### Replicas -/

/-- An operation on an atom. A hyperedge is given by a pointer, since a call may change it. -/
inductive Op where
  | addVertex (v : Vertex)
  | removeVertex (v : Vertex)
  | addHyperedge (r : Nat)
  | removeHyperedge (r : Nat)

/-- A hypergraph, an open transaction if there is one, and the hyperedges that pointers lead to. -/
structure Replica where
  hg : HypergraphCRDT
  txn : Txn
  heap : Nat → Hyperedge

inductive Event where
  | call (op : Op)
  | begin
  | commit

def Replica.new (heap : Nat → Hyperedge) (coveredPrefix : List Nibble) : Replica where
  hg := .new OrdMap.empty coveredPrefix
  txn := none
  heap := heap

section
variable (c : Crypto)

def Op.apply (s : Replica) : Op → Except Fault (Replica × Option String)
  | .addVertex v => do
    let (hg, txn, err) ← s.hg.addVertex c s.txn v
    .ok ({ s with hg, txn }, err)
  | .removeVertex v => do
    let (hg, txn, err) ← s.hg.removeVertex c s.txn v
    .ok ({ s with hg, txn }, err)
  | .addHyperedge r => do
    let (hg, h, txn, err) ← s.hg.addHyperedge c s.txn (s.heap r)
    .ok ({ hg, txn, heap := Function.update s.heap r h }, err)
  | .removeHyperedge r => do
    let (hg, h, txn, err) ← s.hg.removeHyperedge c s.txn (s.heap r)
    .ok ({ hg, txn, heap := Function.update s.heap r h }, err)

def Event.apply (s : Replica) : Event → Except Fault (Replica × Option String)
  | .call op => op.apply c s
  | .begin => .ok ({ s with txn := some (s.txn.getD []) }, none)
  | .commit => .ok ({ s with hg := s.hg.commitTxn s.txn, txn := none }, none)

/-- A run ends at the first operation that returns an error. -/
def Replica.run : List Event → Replica → Except Fault (Replica × Option String)
  | [], s => .ok (s, none)
  | event :: events, s => do
    match ← event.apply c s with
    | (s, none) => Replica.run events s
    | (s, some err) => .ok (s, some err)

def calls (events : List Event) : List Op :=
  events.filterMap fun
    | .call op => some op
    | _ => none

/-! ### What is observed -/

def HypergraphCRDT.rootCommit (hg : HypergraphCRDT) (tree : TreeId) : Except Fault Bytes := do
  let (root, _, _) ← (hg.set tree).tree.commit c.sha3 c.sha512 c.prover treeFuel hg.store false
  .ok root

/-- The same leaves, the same root commitments of the removes sets, and the same atoms are found. -/
structure Same (hg hg' : HypergraphCRDT) : Prop where
  leaves : ∀ tree, ∃ items, hg.leaves tree = .ok items ∧ hg'.leaves tree = .ok items
  roots : ∀ tree, tree.phaseType = .removes → ∃ root, hg.rootCommit c tree = .ok root ∧ hg'.rootCommit c tree = .ok root
  vertices : ∀ v, (hg.lookupVertex c v).2 = (hg'.lookupVertex c v).2
  hyperedges : ∀ h, (hg.lookupHyperedge c h).2 = (hg'.lookupHyperedge c h).2

/-- Two runs of all operations, in any order, agree in the end, and so do two runs that apply one operation once or
    twice. -/
structure Converges (heap : Nat → Hyperedge) (ops : List Op) : Prop where
  order : ∀ coveredPrefix events events' s s', (calls events).Perm ops → (calls events').Perm ops →
    (Replica.new heap coveredPrefix).run c events = .ok (s, none) → s.txn = none →
    (Replica.new heap coveredPrefix).run c events' = .ok (s', none) → s'.txn = none → Same c s.hg s'.hg
  twice : ∀ coveredPrefix before after s s', ∀ op ∈ ops, calls before ⊆ ops → calls after ⊆ ops →
    (Replica.new heap coveredPrefix).run c (before ++ .call op :: after) = .ok (s, none) → s.txn = none →
    (Replica.new heap coveredPrefix).run c (before ++ .call op :: .call op :: after) = .ok (s', none) → s'.txn = none →
    Same c s.hg s'.hg

end

/-! ### What an operation puts into a tree -/

namespace Op

def atom (heap : Nat → Hyperedge) : Op → Atom
  | .addVertex v => .vertex v
  | .removeVertex v => .vertex v
  | .addHyperedge r => .hyperedge (heap r)
  | .removeHyperedge r => .hyperedge (heap r)

def removes : Op → Bool
  | .addVertex _ => false
  | .removeVertex _ => true
  | .addHyperedge _ => false
  | .removeHyperedge _ => true

end Op

def Atom.Committed (c : Crypto) : Atom → Prop
  | .vertex _ => True
  | .hyperedge h => h.Committed c.sha512 c.prover

def SameAtoms (heap : Nat → Hyperedge) (ops : List Op) : Prop :=
  ∀ op ∈ ops, ∀ op' ∈ ops, (op.atom heap).id = (op'.atom heap).id → op.atom heap = op'.atom heap

def Op.Puts (c : Crypto) (heap : Nat → Hyperedge) (op : Op) (tree : TreeId) : Prop :=
  tree = (op.atom heap).tree c .adds ∨ (op.removes = true ∧ tree = (op.atom heap).tree c .removes)

def Tracked (c : Crypto) (heap : Nat → Hyperedge) (done : List Op) (B : Bindings) : Prop :=
  ∀ tree k a, B tree k = some a ↔ ∃ op ∈ done, op.Puts c heap tree ∧ a = (op.atom heap).item c ∧ k = (op.atom heap).id

/-- After some operations: the sets hold what they put, and hyperedges are as given or committed. -/
structure Tracks (c : Crypto) (heap : Nat → Hyperedge) (done : List Op) (s : Replica) (B : Bindings) : Prop where
  sets : Sets c s.hg s.txn B
  read : s.hg.Read B
  tracked : Tracked c heap done B
  heap : ∀ r, s.heap r = heap r ∨ s.heap r = ((heap r).commit c.sha512 c.prover).2

section
variable {c : Crypto} {heap : Nat → Hyperedge} {ops done done' : List Op} {s s' : Replica} {B B' : Bindings} {op : Op}

theorem tracks_new (c : Crypto) (heap : Nat → Hyperedge) (cov : List Nibble) :
    Tracks c heap [] (.new heap cov) fun _ _ => none where
  sets := sets_new c cov
  read := (sets_new c cov).read rfl
  tracked _ _ _ := by simp
  heap _ := .inl rfl

section
variable (h : Tracked c heap done B)
include h

theorem Tracked.ext (h' : Tracked c heap done' B') (hs : ∀ op, op ∈ done ↔ op ∈ done') : B = B' := by
  funext tree k
  refine Option.ext fun a => ?_
  simp [h tree k a, h' tree k a, hs]

section
variable (hsame : SameAtoms heap ops)
include hsame

section
variable (hdone : done ⊆ ops)
include hdone

section
variable (hop : op ∈ ops)
include hop

theorem Tracked.bound {tree : TreeId} (hne : B tree (op.atom heap).id ≠ none) :
    B tree (op.atom heap).id = some ((op.atom heap).item c) ∧ ∃ op' ∈ done, op'.Puts c heap tree ∧
      op'.atom heap = op.atom heap := by
  obtain ⟨a, ha⟩ := Option.ne_none_iff_exists'.mp hne
  obtain ⟨op', hop', hpt, rfl, hid⟩ := (h tree _ a).mp ha
  have ham := hsame op' (hdone hop') op hop hid.symm
  exact ⟨by rw [ha, ham], op', hop', hpt, ham⟩

theorem Tracked.step (hpt : ∀ tree, op.Puts c heap tree → B' tree (op.atom heap).id = some ((op.atom heap).item c))
    (hot : ∀ tree k, ¬(op.Puts c heap tree ∧ k = (op.atom heap).id) → B' tree k = B tree k) :
    Tracked c heap (done ++ [op]) B' := by
  intro tree k a
  have hm : ∀ op', op' ∈ done ++ [op] ↔ op' ∈ done ∨ op' = op := fun op' => by simp
  by_cases hhr : op.Puts c heap tree ∧ k = (op.atom heap).id
  · obtain ⟨hp, rfl⟩ := hhr
    rw [hpt tree hp, Option.some.injEq]
    constructor
    · rintro rfl
      exact ⟨op, (hm op).mpr (.inr rfl), hp, rfl, rfl⟩
    · rintro ⟨op', hop', -, rfl, hid⟩
      have hin : op' ∈ ops := ((hm op').mp hop').elim (fun h => hdone h) fun h => h ▸ hop
      rw [hsame op hop op' hin hid]
  · rw [hot tree k hhr, h tree k a]
    constructor
    · rintro ⟨op', hop', hrs⟩
      exact ⟨op', (hm op').mpr (.inl hop'), hrs⟩
    · rintro ⟨op', hop', hp, ha, hk⟩
      rcases (hm op').mp hop' with hop' | rfl
      · exact ⟨op', hop', hp, ha, hk⟩
      · exact absurd ⟨hp, hk⟩ hhr

theorem Tracked.add (had : op.removes = false) :
    Tracked c heap (done ++ [op]) (B.bind ((op.atom heap).tree c .adds) ((op.atom heap).item c)) := by
  have hpt : ∀ tree, op.Puts c heap tree ↔ tree = (op.atom heap).tree c .adds := fun tree => by
    simp [Op.Puts, had]
  refine h.step hsame hdone hop (fun tree hp => ?_) fun tree k hne => ?_
  · obtain rfl := (hpt tree).mp hp
    rw [bind_self, Atom.item_key, if_pos rfl]
  · by_cases ht : tree = (op.atom heap).tree c .adds
    · subst ht
      rw [bind_self, Atom.item_key, if_neg fun hk => hne ⟨(hpt _).mpr rfl, hk⟩]
    · rw [bind_of_ne _ _ ht]

theorem Tracked.remove (hrms : op.removes = true) :
    Tracked c heap (done ++ [op]) ((B.bind ((op.atom heap).tree c .adds) ((op.atom heap).item c)).bind
      ((op.atom heap).tree c .removes) ((op.atom heap).item c)) := by
  have hpt : ∀ tree, op.Puts c heap tree ↔
      tree = (op.atom heap).tree c .adds ∨ tree = (op.atom heap).tree c .removes := fun tree => by
    simp [Op.Puts, hrms]
  have hne : (op.atom heap).tree c .adds ≠ (op.atom heap).tree c .removes := by
    cases op.atom heap <;> simp [Atom.tree, Vertex.tree, Hyperedge.tree]
  refine h.step hsame hdone hop (fun tree hp => ?_) fun tree k hno => ?_
  · rcases (hpt tree).mp hp with rfl | rfl
    · rw [bind_of_ne _ _ hne, bind_self, Atom.item_key, if_pos rfl]
    · rw [bind_self, Atom.item_key, if_pos rfl]
  · by_cases hr : tree = (op.atom heap).tree c .removes
    · subst hr
      rw [bind_self, Atom.item_key, if_neg fun hk => hno ⟨(hpt _).mpr (.inr rfl), hk⟩, bind_of_ne _ _ hne.symm]
    · rw [bind_of_ne _ _ hr]
      by_cases ha : tree = (op.atom heap).tree c .adds
      · subst ha
        rw [bind_self, Atom.item_key, if_neg fun hk => hno ⟨(hpt _).mpr (.inl rfl), hk⟩]
      · rw [bind_of_ne _ _ ha]

end

end

end

end

/-! ### One operation -/

theorem heap_item {h h₀ : Hyperedge} (hh : h = h₀ ∨ h = (h₀.commit c.sha512 c.prover).2)
    (hc : h₀.Committed c.sha512 c.prover) :
    h.item c.sha512 c.prover = h₀.item c.sha512 c.prover ∧ h.id = h₀.id ∧ h.tree c = h₀.tree c ∧
      (h.commit c.sha512 c.prover).2 = (h₀.commit c.sha512 c.prover).2 ∧
      (h.commit c.sha512 c.prover).2.item c.sha512 c.prover = h₀.item c.sha512 c.prover := by
  rcases hh with rfl | rfl
  · exact ⟨rfl, rfl, rfl, rfl, h.item_commit _ _ hc⟩
  · exact ⟨h₀.item_commit _ _ hc, rfl, rfl, by rw [h₀.commit_idem], by rw [h₀.commit_idem]; exact h₀.item_commit _ _ hc⟩

section
variable (h : Tracks c heap done s B)
include h

theorem Tracks.heap_update (r : Nat) {e : Hyperedge} (he : e = heap r ∨ e = ((heap r).commit c.sha512 c.prover).2)
    (r' : Nat) : update s.heap r e r' = heap r' ∨ update s.heap r e r' = ((heap r').commit c.sha512 c.prover).2 := by
  by_cases hr : r' = r
  · subst hr
    rw [update_self]
    exact he
  · rw [update_of_ne hr]
    exact h.heap r'

section
variable (hsame : SameAtoms heap ops)
include hsame

section
variable (hdone : done ⊆ ops)
include hdone

theorem Tracks.bind_found (hop : op ∈ ops)
    (hh : (s.hg.set ((op.atom heap).tree c .adds)).has s.hg.store (op.atom heap).id = true) :
    B.bind ((op.atom heap).tree c .adds) ((op.atom heap).item c) = B := by
  have hne := h.sets.bound_of_has h.read (Atom.length_id _) hh
  refine bind_eq_self ?_
  rw [Atom.item_key]
  exact (h.tracked.bound hsame hdone hop hne).1

theorem Tracks.addVertex {v : Vertex} (hop : .addVertex v ∈ ops)
    (hrun : (Op.addVertex v).apply c s = .ok (s', none)) : ∃ B', Tracks c heap (done ++ [.addVertex v]) s' B' := by
  cases hc : s.hg.covers v.id with
  | true =>
    obtain ⟨hg', txn', hadd, hL, hr, -⟩ := h.sets.addVertex v h.read hc
    simp only [Op.apply, hadd, ok_bind] at hrun
    cases hrun
    exact ⟨_, hL.sets, hr, h.tracked.add hsame hdone hop rfl, h.heap⟩
  | false =>
    simp only [Op.apply, h.sets.addVertex_outside v h.read hc, ok_bind] at hrun
    cases hrun

theorem Tracks.removeVertex {v : Vertex} (hop : .removeVertex v ∈ ops)
    (hrun : (Op.removeVertex v).apply c s = .ok (s', none)) :
    ∃ B', Tracks c heap (done ++ [.removeVertex v]) s' B' := by
  cases hc : s.hg.covers v.id with
  | true =>
    obtain ⟨hg', txn', B', hadd, hL, hr, hB⟩ := h.sets.removeVertex v h.read hc
    simp only [Op.apply, hadd, ok_bind] at hrun
    cases hrun
    refine ⟨B', hL.sets, hr, ?_, h.heap⟩
    have ht := h.tracked.remove hsame hdone hop rfl
    split_ifs at hB with hfn
    · rw [Bool.and_eq_true] at hfn
      have hbn := h.bind_found hsame hdone hop hfn.1
      rw [hbn] at ht
      rw [hB.1]
      exact ht
    · rw [hB.1]
      exact ht
  | false =>
    obtain ⟨err, hadd⟩ := h.sets.removeVertex_outside v h.read hc
    simp only [Op.apply, hadd, ok_bind] at hrun
    cases hrun

theorem Tracks.addHyperedge {r : Nat} (hop : .addHyperedge r ∈ ops) (hcom : (heap r).Committed c.sha512 c.prover)
    (hrun : (Op.addHyperedge r).apply c s = .ok (s', none)) :
    ∃ B', Tracks c heap (done ++ [.addHyperedge r]) s' B' := by
  obtain ⟨him, hid, htr, hcmm, -⟩ := heap_item (h.heap r) hcom
  cases hh : (s.hg.set ((s.heap r).tree c .removes)).has s.hg.store (s.heap r).id with
  | true =>
    obtain ⟨hg', hadd, hL, hr, -⟩ := h.sets.addHyperedge_removed (s.heap r) h.read hh
    simp only [Op.apply, hadd, ok_bind] at hrun
    cases hrun
    -- what has been removed is in the adds set too
    have hbn : B ((heap r).tree c .removes) (heap r).id ≠ none := by
      rw [htr, hid] at hh
      exact h.sets.bound_of_has h.read (heap r).length_id hh
    obtain ⟨-, op', hop', -, ham⟩ := h.tracked.bound hsame hdone hop hbn
    refine ⟨B, hL.sets, hr, h.tracked.step hsame hdone hop (fun tree hp => ?_) fun _ _ _ => rfl,
      h.heap_update r (h.heap r)⟩
    rcases hp with rfl | ⟨hno, -⟩
    · exact (h.tracked _ _ _).mpr ⟨op', hop', .inl (by rw [ham]), by rw [ham], by rw [ham]⟩
    · cases hno
  | false =>
    cases hc : s.hg.covers (s.heap r).id with
    | true =>
      obtain ⟨hg', txn', hadd, hL, hr, -⟩ := h.sets.addHyperedge (s.heap r) h.read hh hc
      simp only [Op.apply, hadd, ok_bind] at hrun
      cases hrun
      have ht := h.tracked.add hsame hdone hop rfl
      rw [him, htr] at hL hr
      exact ⟨_, hL.sets, hr, ht, h.heap_update r (.inr hcmm)⟩
    | false =>
      simp only [Op.apply, h.sets.addHyperedge_outside (s.heap r) h.read hc hh, ok_bind] at hrun
      cases hrun

theorem Tracks.removeHyperedge {r : Nat} (hop : .removeHyperedge r ∈ ops)
    (hcom : (heap r).Committed c.sha512 c.prover) (hrun : (Op.removeHyperedge r).apply c s = .ok (s', none)) :
    ∃ B', Tracks c heap (done ++ [.removeHyperedge r]) s' B' := by
  obtain ⟨him, hid, htr, hcmm, him'⟩ := heap_item (h.heap r) hcom
  cases hc : s.hg.covers (s.heap r).id with
  | true =>
    obtain ⟨hg', txn', B', hadd, hL, hr, hB⟩ := h.sets.removeHyperedge (s.heap r) h.read hc
    simp only [Op.apply, hadd, ok_bind] at hrun
    cases hrun
    refine ⟨B', hL.sets, hr, ?_, h.heap_update r (.inr hcmm)⟩
    have ht := h.tracked.remove hsame hdone hop rfl
    rw [him, him', htr, hid] at hB
    split_ifs at hB with hfn
    · rw [Bool.and_eq_true] at hfn
      have hbn := h.bind_found hsame hdone hop hfn.1
      rw [hbn] at ht
      rw [hB.1]
      exact ht
    · rw [hB.1]
      exact ht
  | false =>
    obtain ⟨err, hadd⟩ := h.sets.removeHyperedge_outside (s.heap r) h.read hc
    simp only [Op.apply, hadd, ok_bind] at hrun
    cases hrun

theorem Tracks.call (hop : op ∈ ops) (hc : (op.atom heap).Committed c) (hr : op.apply c s = .ok (s', none)) :
    ∃ B', Tracks c heap (done ++ [op]) s' B' := by
  cases op with
  | addVertex v => exact h.addVertex hsame hdone hop hr
  | removeVertex v => exact h.removeVertex hsame hdone hop hr
  | addHyperedge r => exact h.addHyperedge hsame hdone hop hc hr
  | removeHyperedge r => exact h.removeHyperedge hsame hdone hop hc hr

end

end

end

/-! ### Every run -/

theorem run_cons {event : Event} {events : List Event} {s' : Replica}
    (hr : s.run c (event :: events) = .ok (s', none)) :
    ∃ s₁, event.apply c s = .ok (s₁, none) ∧ s₁.run c events = .ok (s', none) := by
  obtain ⟨⟨s₁, err⟩, happ, hr⟩ := bind_eq_ok.mp hr
  cases err with
  | none => exact ⟨s₁, happ, hr⟩
  | some err => cases hr

section
variable (h : Tracks c heap done s B)
include h

theorem Tracks.begin : Tracks c heap done { s with txn := some (s.txn.getD []) } B :=
  ⟨⟨h.sets.stores, h.sets.named, h.sets.typed, h.sets.covered, h.sets.listed, h.sets.nodup⟩, h.read, h.tracked, h.heap⟩

theorem Tracks.commit : Tracks c heap done { s with hg := s.hg.commitTxn s.txn, txn := none } B :=
  ⟨h.sets.commitTxn, h.sets.commitTxn.read rfl, h.tracked, h.heap⟩

theorem Tracks.run {events : List Event} (hsame : SameAtoms heap ops) (hdone : done ⊆ ops)
    (hc : ∀ op ∈ ops, (op.atom heap).Committed c) (hcl : calls events ⊆ ops)
    (hr : s.run c events = .ok (s', none)) : ∃ B', Tracks c heap (done ++ calls events) s' B' := by
  induction events generalizing s done B with
  | nil =>
    cases hr
    exact ⟨B, by rwa [calls, filterMap_nil, append_nil]⟩
  | cons event events ih =>
    obtain ⟨s₁, happ, hrs⟩ := run_cons hr
    cases event with
    | call op =>
      have hop : op ∈ ops := hcl mem_cons_self
      obtain ⟨B₁, h₁⟩ := h.call hsame hdone hop (hc op hop) happ
      have hdn₁ : done ++ [op] ⊆ ops := append_subset.mpr ⟨hdone, by simpa using hop⟩
      obtain ⟨B', h'⟩ := ih h₁ hdn₁ (fun o ho => hcl (mem_cons_of_mem _ ho)) hrs
      exact ⟨B', by rwa [append_assoc] at h'⟩
    | begin =>
      cases happ
      exact ih h.begin hdone hcl hrs
    | commit =>
      cases happ
      exact ih h.commit hdone hcl hrs

end

/-! ### Agreement -/

theorem Sets.rootCommit_eq {hg hg' : HypergraphCRDT} (h : Sets c hg none B) (h' : Sets c hg' none B) (tree : TreeId) :
    ∃ root, hg.rootCommit c tree = .ok root ∧ hg'.rootCommit c tree = .ok root := by
  have hsk : skel (whole (hg.set tree).tree.root) = skel (whole (hg'.set tree).tree.root) :=
    Canonical.ext (h.stores tree).holds.shaped (h'.stores tree).holds.shaped fun a =>
      (h.stores tree).mem_iff.trans (h'.stores tree).mem_iff.symm
  obtain ⟨root, db, hc, -⟩ := (h.stores tree).commit_spec c.sha3 (by decide) lt_treeFuel false
  obtain ⟨root', db', hc', -⟩ := (h'.stores tree).commit_spec c.sha3 (by decide) lt_treeFuel false
  refine ⟨rootCommitOf c.sha512 c.prover (skel (whole (hg.set tree).tree.root)), ?_, ?_⟩
  · rw [HypergraphCRDT.rootCommit, show hg.store = pending hg.store none from rfl, hc]
    rfl
  · rw [HypergraphCRDT.rootCommit, show hg'.store = pending hg'.store none from rfl, hc', hsk]
    rfl

theorem Sets.same {hg hg' : HypergraphCRDT} (h : Sets c hg none B) (h' : Sets c hg' none B) : Same c hg hg' where
  leaves tree := ⟨_, h.leaves_eq tree, by rw [h'.leaves_eq tree, (h.stores tree).leaves_eq (h'.stores tree)]⟩
  roots tree _ := h.rootCommit_eq h' tree
  vertices v := by
    have hh : ∀ tree, (hg.set tree).has hg.store v.id = (hg'.set tree).has hg'.store v.id := fun tree => by
      rw [Bool.eq_iff_iff, h.has_iff rfl v.length_id, h'.has_iff rfl v.length_id]
    rw [hg.lookupVertex_eq, hg'.lookupVertex_eq, hh, hh]
  hyperedges e := by
    have hh : ∀ tree, (hg.set tree).has hg.store e.id = (hg'.set tree).has hg'.store e.id := fun tree => by
      rw [Bool.eq_iff_iff, h.has_iff rfl e.length_id, h'.has_iff rfl e.length_id]
    rw [hg.lookupHyperedge_eq, hg'.lookupHyperedge_eq, hh, hh]

theorem Tracks.same (h : Tracks c heap done s B) (h' : Tracks c heap done' s' B') (hs : s.txn = none) (hs' : s'.txn = none)
    (hsub : ∀ op, op ∈ done ↔ op ∈ done') : Same c s.hg s'.hg := by
  have hset := h.sets
  have hset' := h'.sets
  rw [hs] at hset
  rw [hs', ← h.tracked.ext h'.tracked hsub] at hset'
  exact hset.same hset'

theorem converges_of_committed (hsame : SameAtoms heap ops) (hc : ∀ op ∈ ops, (op.atom heap).Committed c) :
    Converges c heap ops := by
  have reach : ∀ {cov events s}, calls events ⊆ ops →
      (Replica.new heap cov).run c events = .ok (s, none) → ∃ B, Tracks c heap (calls events) s B :=
    fun hcl hr => (tracks_new c heap _).run hsame (nil_subset _) hc hcl hr
  constructor
  · intro cov events events' s s' hpr hpr' hr hs hr' hs'
    obtain ⟨B, h⟩ := reach hpr.subset hr
    obtain ⟨B', h'⟩ := reach hpr'.subset hr'
    exact h.same h' hs hs' fun op => (hpr.trans hpr'.symm).mem_iff
  · intro cov before after s s' op hop hb haf hr hs hr' hs'
    have hcl : calls (before ++ .call op :: after) = calls before ++ op :: calls after := by simp [calls]
    have hcl' : calls (before ++ .call op :: .call op :: after) = calls before ++ op :: op :: calls after := by
      simp [calls]
    obtain ⟨B, h⟩ := reach (by rw [hcl]; simp [hb, haf, hop]) hr
    obtain ⟨B', h'⟩ := reach (by rw [hcl']; simp [hb, haf, hop]) hr'
    refine h.same h' hs hs' fun o => ?_
    rw [hcl, hcl']
    simp

/-! ### A hyperedge that is not committed -/

theorem Sets.has_false {hg : HypergraphCRDT} {tree : TreeId} {id : Bytes} (h : Sets c hg none B) (hk : id.length = 64)
    (hb : B tree id = none) : (hg.set tree).has hg.store id = false := by
  rw [← Bool.not_eq_true, h.has_iff rfl hk]
  exact fun hne => hne hb

/-- Applied once to an empty replica the operation adds the bytes of the hyperedge before its commit, applied twice
    those after it. -/
def PutsAnew (c : Crypto) (heap : Nat → Hyperedge) (r : Nat) (op : Op) : Prop :=
  ∃ s s' B B', (Replica.new heap []).run c [.call op] = .ok (s, none) ∧ s.txn = none ∧
    (Replica.new heap []).run c [.call op, .call op] = .ok (s', none) ∧ s'.txn = none ∧
    Sets c s.hg none B ∧ Sets c s'.hg none B' ∧
    B ((heap r).tree c .adds) (heap r).id = some ((heap r).item c.sha512 c.prover) ∧
    B' ((heap r).tree c .adds) (heap r).id = some (((heap r).commit c.sha512 c.prover).2.item c.sha512 c.prover)

theorem addHyperedge_anew (c : Crypto) (heap : Nat → Hyperedge) (r : Nat) : PutsAnew c heap r (.addHyperedge r) := by
  have h₀ := sets_new c []
  obtain ⟨hg₁, txn₁, hadd₁, hL₁, hr₁, -⟩ := h₀.addHyperedge (heap r) (h₀.read rfl) (h₀.has_false (heap r).length_id rfl) rfl
  obtain rfl : txn₁ = none := by simpa using hL₁.isSome
  have hne : (heap r).tree c .removes ≠ (heap r).tree c .adds := by simp [Hyperedge.tree]
  have hfree : (hg₁.set ((heap r).tree c .removes)).has hg₁.store (heap r).id = false :=
    hL₁.sets.has_false (heap r).length_id (by rw [bind_of_ne _ _ hne])
  obtain ⟨hg₂, txn₂, hadd₂, hL₂, -, -⟩ := hL₁.sets.addHyperedge ((heap r).commit c.sha512 c.prover).2 hr₁ hfree
    ((hL₁.covers _).trans rfl)
  obtain rfl : txn₂ = none := by simpa using hL₂.isSome
  let heap₁ := update heap r ((heap r).commit c.sha512 c.prover).2
  let heap₂ := update heap₁ r (((heap r).commit c.sha512 c.prover).2.commit c.sha512 c.prover).2
  refine ⟨⟨hg₁, none, heap₁⟩, ⟨hg₂, none, heap₂⟩, _, _, ?_, rfl, ?_, rfl, hL₁.sets, hL₂.sets, ?_, ?_⟩
  · simp [Replica.run, Event.apply, Op.apply, Replica.new, hadd₁, heap₁]
  · simp [Replica.run, Event.apply, Op.apply, Replica.new, hadd₁, hadd₂, heap₁, heap₂]
  · rw [bind_self]
    exact if_pos rfl
  · exact (bind_self _ _ _ _).trans (if_pos rfl)

theorem removeHyperedge_anew (c : Crypto) (heap : Nat → Hyperedge) (r : Nat) :
    PutsAnew c heap r (.removeHyperedge r) := by
  have h₀ := sets_new c []
  have hne : (heap r).tree c .adds ≠ (heap r).tree c .removes := by simp [Hyperedge.tree]
  obtain ⟨hg₁, txn₁, B₁, hrem₁, hL₁, hr₁, hB₁⟩ := h₀.removeHyperedge (heap r) (h₀.read rfl) rfl
  obtain rfl : txn₁ = none := by simpa using hL₁.isSome
  obtain ⟨rfl, -⟩ := hB₁
  obtain ⟨hg₂, txn₂, B₂, hr₂, hL₂, -, hB₂⟩ := hL₁.sets.removeHyperedge ((heap r).commit c.sha512 c.prover).2 hr₁
    ((hL₁.covers _).trans rfl)
  obtain rfl : txn₂ = none := by simpa using hL₂.isSome
  -- it has been removed, so the second call takes it for absent
  have hr : (hg₁.set (((heap r).commit c.sha512 c.prover).2.tree c .removes)).has hg₁.store (heap r).id = true := by
    rw [hL₁.sets.has_iff rfl (heap r).length_id]
    refine ne_of_eq_of_ne ((bind_self _ _ _ _).trans (if_pos rfl)) (Option.some_ne_none _)
  rw [if_neg (by rw [show ((heap r).commit c.sha512 c.prover).2.id = (heap r).id from rfl, hr]; simp)] at hB₂
  obtain ⟨rfl, -⟩ := hB₂
  let heap₁ := update heap r ((heap r).commit c.sha512 c.prover).2
  let heap₂ := update heap₁ r (((heap r).commit c.sha512 c.prover).2.commit c.sha512 c.prover).2
  refine ⟨⟨hg₁, none, heap₁⟩, ⟨hg₂, none, heap₂⟩, _, _, ?_, rfl, ?_, rfl, hL₁.sets, hL₂.sets, ?_, ?_⟩
  · simp [Replica.run, Event.apply, Op.apply, Replica.new, hrem₁, heap₁]
  · simp [Replica.run, Event.apply, Op.apply, Replica.new, hrem₁, hr₂, heap₁, heap₂]
  · rw [bind_of_ne _ _ hne]
    exact (bind_self _ _ _ _).trans (if_pos rfl)
  · have hne' : (heap r).tree c .adds ≠ ((heap r).commit c.sha512 c.prover).2.tree c .removes := hne
    exact (bind_self _ _ _ _).trans (if_pos rfl)

theorem Converges.committed {r : Nat} (h : Converges c heap ops) (hop : op ∈ ops) (han : PutsAnew c heap r op) :
    (heap r).Committed c.sha512 c.prover := by
  obtain ⟨s, s', B, B', hr, hs, hr', hs', hset, hset', hb, hb'⟩ := han
  have hsame := h.twice [] [] [] s s' op hop (nil_subset _) (nil_subset _) hr hs hr' hs'
  obtain ⟨items, hl, hm⟩ := hset.mem_leaves ((heap r).tree c .adds)
  obtain ⟨items', hl', hm'⟩ := hset'.mem_leaves ((heap r).tree c .adds)
  obtain ⟨items'', hl₁, hl₂⟩ := hsame.leaves ((heap r).tree c .adds)
  obtain rfl : items = items' := (ok.inj (hl.symm.trans hl₁)).trans (ok.inj (hl'.symm.trans hl₂)).symm
  have hin := (hm' _).mp ((hm ((heap r).item c.sha512 c.prover)).mpr hb)
  have him := Option.some.inj (hin.symm.trans hb')
  exact (congrArg Item.value him).symm

/-- Replicas converge exactly if every hyperedge that they are given has been committed before, so that adding it
    does not change its bytes. -/
theorem converges_iff_committed (c : Crypto) (heap : Nat → Hyperedge) (ops : List Op) (hsame : SameAtoms heap ops) :
    Converges c heap ops ↔
      ∀ op ∈ ops, ∀ r, op = .addHyperedge r ∨ op = .removeHyperedge r → (heap r).Committed c.sha512 c.prover := by
  constructor
  · rintro h op hop r (rfl | rfl)
    · exact h.committed hop (addHyperedge_anew c heap r)
    · exact h.committed hop (removeHyperedge_anew c heap r)
  · intro hc
    refine converges_of_committed hsame fun op hop => ?_
    cases op with
    | addVertex v => trivial
    | removeVertex v => trivial
    | addHyperedge r => exact hc _ hop r (.inl rfl)
    | removeHyperedge r => exact hc _ hop r (.inr rfl)

def uncommittedHyperedge : Hyperedge where
  appAddress := ⟨List.replicate 32 1, List.length_replicate⟩
  dataAddress := ⟨List.replicate 32 2, List.length_replicate⟩
  extTree := ⟨.leaf ⟨⟨List.replicate 64 3, [0], [], 0⟩, []⟩⟩

theorem uncommittedHyperedge_bytes : ¬uncommittedHyperedge.Committed (Digest.zeros 64) .transparent := by
  intro h
  have hl := congrArg length h
  revert hl
  decide +kernel

/-- Adding it once or twice leaves other bytes in the adds set. -/
theorem add_uncommitted_diverges : ¬Converges .plain (fun _ => uncommittedHyperedge) [.addHyperedge 0] := fun h =>
  uncommittedHyperedge_bytes (h.committed mem_cons_self (addHyperedge_anew .plain _ 0))

def emptyHyperedge : Hyperedge where
  appAddress := ⟨List.replicate 32 1, List.length_replicate⟩
  dataAddress := ⟨List.replicate 32 2, List.length_replicate⟩
  extTree := .empty

theorem converges_iff_committed_empty : Converges .plain (fun _ => emptyHyperedge) [.addHyperedge 0, .removeHyperedge 0] :=
  (converges_iff_committed .plain (fun _ => emptyHyperedge) [.addHyperedge 0, .removeHyperedge 0] (by
    intro op hop op' hop' _
    simp only [mem_cons, not_mem_nil, or_false] at hop hop'
    rcases hop with rfl | rfl <;> rcases hop' with rfl | rfl <;> rfl)).mpr fun _ _ _ _ => rfl

/-! ### Look-ups -/

def HypergraphCRDT.lookup (c : Crypto) (hg : HypergraphCRDT) : Atom → Bool
  | .vertex v => (hg.lookupVertex c v).2
  | .hyperedge h => (hg.lookupHyperedge c h).2

/-- The operation is on an atom of the same kind and shard with the same id. -/
def Op.Names (c : Crypto) (heap : Nat → Hyperedge) (a : Atom) (op : Op) : Prop :=
  op.Puts c heap (a.tree c .adds) ∧ (op.atom heap).id = a.id

theorem Op.puts_removes {a : Atom} :
    op.Puts c heap (a.tree c .removes) ↔ op.removes = true ∧ op.Puts c heap (a.tree c .adds) := by
  cases op <;> cases a <;> simp [Puts, Op.atom, removes, Atom.tree, Vertex.tree, Hyperedge.tree]

theorem lookup_two_phase (heap : Nat → Hyperedge) (coveredPrefix : List Nibble) (events : List Event) (s : Replica)
    (hsame : SameAtoms heap (calls events)) (hcommitted : ∀ op ∈ calls events, (op.atom heap).Committed c)
    (hrun : (Replica.new heap coveredPrefix).run c events = .ok (s, none)) (hclosed : s.txn = none) (a : Atom) :
    s.hg.lookup c a = true ↔ (∃ op ∈ calls events, op.Names c heap a) ∧
      ∀ op ∈ calls events, op.Names c heap a → op.removes = false := by
  obtain ⟨B, h⟩ := (tracks_new c heap coveredPrefix).run hsame (nil_subset _) hcommitted (Subset.refl _) hrun
  have hset := h.sets
  rw [hclosed] at hset
  have hhas : ∀ tree, (s.hg.set tree).has s.hg.store a.id = true ↔
      ∃ op ∈ calls events, op.Puts c heap tree ∧ (op.atom heap).id = a.id := by
    intro tree
    rw [hset.has_iff rfl a.length_id, Option.ne_none_iff_exists']
    constructor
    · rintro ⟨_, hb⟩
      obtain ⟨op, hop, hp, -, hid⟩ := (h.tracked tree a.id _).mp hb
      exact ⟨op, hop, hp, hid.symm⟩
    · rintro ⟨op, hop, hp, hid⟩
      exact ⟨_, (h.tracked tree a.id _).mpr ⟨op, hop, hp, rfl, hid.symm⟩⟩
  have hlk : s.hg.lookup c a = ((s.hg.set (a.tree c .adds)).has s.hg.store a.id &&
      !(s.hg.set (a.tree c .removes)).has s.hg.store a.id) := by
    cases a <;> rfl
  rw [hlk, Bool.and_eq_true, Bool.not_eq_true', ← Bool.not_eq_true, hhas, hhas]
  simp only [Op.puts_removes, Op.Names]
  grind

theorem lookup_two_phase_removed : ∃ s, (Replica.new (fun _ => emptyHyperedge) []).run .plain
      [.call (.removeHyperedge 0), .call (.addHyperedge 0)] = .ok (s, none) ∧
    s.hg.lookup .plain (.hyperedge emptyHyperedge) = false := by
  have hr : ((Replica.new (fun _ => emptyHyperedge) []).run .plain
      [.call (.removeHyperedge 0), .call (.addHyperedge 0)]).okAnd (fun r => r.2.isNone && r.1.txn.isNone) = true := by
    decide +kernel
  obtain ⟨⟨s, err⟩, hs, hr⟩ := okAnd_iff.mp hr
  simp only [Bool.and_eq_true, Option.isNone_iff_eq_none] at hr
  obtain ⟨rfl, htxn⟩ := hr
  refine ⟨s, hs, Bool.eq_false_iff.mpr fun h => ?_⟩
  rw [lookup_two_phase _ [] _ s (by simp [SameAtoms, calls, Op.atom]) (by simp [calls, Op.atom]; exact rfl) hs htxn] at h
  cases h.2 (.removeHyperedge 0) mem_cons_self ⟨.inl rfl, rfl⟩

end

end Quilibrium
