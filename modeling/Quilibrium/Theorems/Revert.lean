import Quilibrium.Hypergraph.Revert
import Quilibrium.Theorems.Hypergraph

/-! The calls on atoms and `RevertChanges` as changes of the bindings, with no write pending: without a transaction,
    or as the first call of one. -/

namespace Quilibrium
open Radix Except HypergraphCRDT

/-! ### Calls on atoms -/

namespace Atom

def size : Atom → Int
  | .vertex v => v.size
  | .hyperedge h => h.getSize

section
variable (c : Crypto)

/-- `AddVertex` or `AddHyperedge`. -/
def add (a : Atom) : HypergraphCRDT.Step := fun hg txn =>
  match a with
  | .vertex v => hg.addVertex c txn v
  | .hyperedge h => do
    let (hg, _, txn, err) ← hg.addHyperedge c txn h
    .ok (hg, txn, err)

/-- `RevertAddVertex` or `RevertAddHyperedge`. -/
def revertAdd (a : Atom) : HypergraphCRDT.Step := fun hg txn =>
  match a with
  | .vertex v => hg.revertAddVertex c txn v
  | .hyperedge h => hg.revertAddHyperedge c txn h

/-- `RemoveVertex` or `RemoveHyperedge`. -/
def remove (a : Atom) : HypergraphCRDT.Step := fun hg txn =>
  match a with
  | .vertex v => hg.removeVertex c txn v
  | .hyperedge h => do
    let (hg, _, txn, err) ← hg.removeHyperedge c txn h
    .ok (hg, txn, err)

/-- `RevertRemoveVertex` or `RevertRemoveHyperedge`. -/
def revertRemove (a : Atom) : HypergraphCRDT.Step := fun hg txn =>
  match a with
  | .vertex v => hg.revertRemoveVertex c txn v
  | .hyperedge h => hg.revertRemoveHyperedge c txn h

/-- What `Remove` puts into the removes set: a hyperedge that was added too has been committed by then. -/
def again (a : Atom) : Item :=
  match a with
  | .vertex v => v.item
  | .hyperedge h => (h.commit c.sha512 c.prover).2.item c.sha512 c.prover

/-- The additions of a removed hyperedge and their reversal do nothing. -/
def skipped (B : Bindings) (a : Atom) : Bool :=
  match a with
  | .vertex _ => false
  | .hyperedge h => (B (h.tree c .removes) h.id).isSome

theorem again_key (a : Atom) : (a.again c).key = a.id := by
  cases a <;> rfl

theorem again_size (a : Atom) : (a.again c).size = (a.item c).size := by
  cases a with
  | vertex v => rfl
  | hyperedge h => exact congrArg Int.natAbs (h.getSize_commit _ _)

theorem item_size (a : Atom) : (a.item c).size = a.size.natAbs := by
  cases a <;> rfl

end
end Atom

section
variable {c : Crypto} {hg hg' : HypergraphCRDT} {txn txn' : Txn} {B : Bindings} {tree : TreeId} {id : Bytes}

section
variable (h : Sets c hg txn B)
include h

section
variable (htxn : txn.getD [] = [])
include htxn

theorem Sets.has_eq (hk : id.length = 64) : (hg.set tree).has hg.store id = (B tree id).isSome := by
  rw [Bool.eq_iff_iff, h.has_iff htxn hk, Option.isSome_iff_ne_none]

theorem Sets.add (a : Atom) : ∃ hg' txn' err B', a.add c hg txn = .ok (hg', txn', err) ∧ Leaves c hg txn hg' txn' B' ∧
      (err ≠ none → txn' = txn ∧ hg.covers a.id = false) ∧
      (B' = B ∧ hg'.size = hg.size ∧ (a.skipped c B ∨ hg.covers a.id = false) ∨
        err = none ∧ B' = B.bind (a.tree c .adds) (a.item c) ∧ hg'.size = hg.size + a.size ∧ a.skipped c B = false) := by
  have hr := h.read htxn
  cases a with
  | vertex v =>
    cases hc : hg.covers v.id with
    | true =>
      obtain ⟨hg', txn', hadd, hL, -, hsz⟩ := h.addVertex v hr hc
      exact ⟨hg', txn', none, _, hadd, hL, fun hne => absurd rfl hne, .inr ⟨rfl, rfl, hsz, rfl⟩⟩
    | false =>
      exact ⟨_, txn, _, B, h.addVertex_outside v hr hc, h.attempted _, fun _ => ⟨rfl, hc⟩, .inl ⟨rfl, rfl, .inr hc⟩⟩
  | hyperedge e =>
    have hh : (hg.set (e.tree c .removes)).has hg.store e.id = (B (e.tree c .removes) e.id).isSome :=
      h.has_eq htxn e.length_id
    cases hrem : (B (e.tree c .removes) e.id).isSome with
    | true =>
      obtain ⟨hg', hadd, hL, -, hsz⟩ := h.addHyperedge_removed e hr (hh.trans hrem)
      exact ⟨hg', txn, none, B, by simp [Atom.add, hadd], hL, fun hne => absurd rfl hne,
        .inl ⟨rfl, hsz, .inl hrem⟩⟩
    | false =>
      cases hc : hg.covers e.id with
      | true =>
        obtain ⟨hg', txn', hadd, hL, -, hsz⟩ := h.addHyperedge e hr (hh.trans hrem) hc
        exact ⟨hg', txn', none, _, by simp [Atom.add, hadd], hL, fun hne => absurd rfl hne,
          .inr ⟨rfl, rfl, hsz, hrem⟩⟩
      | false =>
        have hadd := h.addHyperedge_outside e hr hc (hh.trans hrem)
        exact ⟨hg.attempted (e.tree c .adds), txn, some ("add hyperedge" ++ ": " ++ outsideCovered), B, by
          simp only [Atom.add, hadd, ok_bind, wrap, Option.map_some], h.attempted _, fun _ => ⟨rfl, hc⟩,
          .inl ⟨rfl, rfl, .inr hc⟩⟩

theorem Sets.remove (a : Atom) :
    ∃ hg' txn' err B', a.remove c hg txn = .ok (hg', txn', err) ∧ Leaves c hg txn hg' txn' B' ∧
      (err ≠ none → txn' = txn ∧ B' = B ∧ hg'.size = hg.size) ∧
      (err = none → if (B (a.tree c .adds) a.id).isSome && !(B (a.tree c .removes) a.id).isSome then
          B' = B.bind (a.tree c .removes) (a.item c) ∧ hg'.size = hg.size - a.size
        else B' = (B.bind (a.tree c .adds) (a.item c)).bind (a.tree c .removes) (a.again c) ∧ hg'.size = hg.size) := by
  have hr := h.read htxn
  cases a with
  | vertex v =>
    cases hc : hg.covers v.id with
    | true =>
      obtain ⟨hg', txn', B', hrem, hL, -, hB⟩ := h.removeVertex v hr hc
      rw [h.has_eq htxn v.length_id, h.has_eq htxn v.length_id] at hB
      exact ⟨hg', txn', none, B', hrem, hL, fun hne => absurd rfl hne, fun _ => hB⟩
    | false =>
      obtain ⟨err, hrem⟩ := h.removeVertex_outside v hr hc
      exact ⟨_, txn, some err, B, hrem, h.attempted _, fun _ => ⟨rfl, rfl, rfl⟩, by rintro ⟨⟩⟩
  | hyperedge e =>
    cases hc : hg.covers e.id with
    | true =>
      obtain ⟨hg', txn', B', hrem, hL, -, hB⟩ := h.removeHyperedge e hr hc
      rw [h.has_eq htxn e.length_id, h.has_eq htxn e.length_id] at hB
      exact ⟨hg', txn', none, B', by simp [Atom.remove, hrem], hL, fun hne => absurd rfl hne, fun _ => hB⟩
    | false =>
      obtain ⟨err, hrem⟩ := h.removeHyperedge_outside e hr hc
      exact ⟨hg.attempted (hg.removalTree c .hyperedge e.appAddress e.dataAddress), txn, some err, B, by
        simp only [Atom.remove, hrem, ok_bind], h.attempted _, fun _ => ⟨rfl, rfl, rfl⟩, by rintro ⟨⟩⟩

theorem Sets.delete_resize (m : AtomType) (p : PhaseType) (s : ShardKey) (hk : id.length = 64) (delta : Int) :
    ∃ hg' txn', (hg.create m s).deleteFrom c.sha3 txn m p s (hg.set ⟨m, p, s⟩) id = .ok (hg', txn', none) ∧
      Leaves c hg txn { hg' with size := hg'.size + delta } txn' (B.unbind ⟨m, p, s⟩ id) ∧ hg'.size = hg.size := by
  have hL := h.create m s
  obtain ⟨hg', txn', hd, hL', hsz⟩ := hL.sets.deleteFrom (h.read htxn) ⟨m, p, s⟩ hk
  rw [set_create] at hd
  exact ⟨hg', txn', hd, (hL.trans hL').resize _, hsz⟩

theorem Sets.revertRemove (a : Atom) : ∃ hg' txn', a.revertRemove c hg txn = .ok (hg', txn', none) ∧
      Leaves c hg txn hg' txn' (B.unbind (a.tree c .removes) a.id) ∧ hg'.size = hg.size + a.size := by
  cases a with
  | vertex v =>
    obtain ⟨hg', txn', hd, hL, hsz⟩ := h.delete_resize htxn .vertex .removes
      (shardKeyOf c.shake v.appAddress) v.length_id v.size
    refine ⟨_, txn', ?_, hL, congrArg (· + v.size) hsz⟩
    simp [Atom.revertRemove, revertRemoveVertex, hd]
  | hyperedge e =>
    obtain ⟨hg', txn', hd, hL, hsz⟩ := h.delete_resize htxn .hyperedge .removes
      (shardKeyOf c.shake e.appAddress) e.length_id e.getSize
    refine ⟨_, txn', ?_, hL, congrArg (· + e.getSize) hsz⟩
    simp [Atom.revertRemove, revertRemoveHyperedge, hd]

theorem Sets.revertAdd (a : Atom) :
    ∃ hg' txn' B', a.revertAdd c hg txn = .ok (hg', txn', none) ∧ Leaves c hg txn hg' txn' B' ∧
      if (B (a.tree c .adds) a.id).isSome && !a.skipped c B then
        B' = B.unbind (a.tree c .adds) a.id ∧ hg'.size = hg.size - a.size else B' = B ∧ hg'.size = hg.size := by
  cases a with
  | vertex v =>
    obtain ⟨hg', txn', hd, hL, hsz⟩ := h.delete_resize htxn .vertex .adds
      (shardKeyOf c.shake v.appAddress) v.length_id (-v.size)
    have hL₁ := h.create .vertex (shardKeyOf c.shake v.appAddress)
    have hh : (hg.set ⟨.vertex, .adds, shardKeyOf c.shake v.appAddress⟩).has hg.store v.id =
        (B (v.tree c .adds) v.id).isSome := h.has_eq htxn v.length_id
    cases had : (B (v.tree c .adds) v.id).isSome with
    | true =>
      refine ⟨_, txn', _, ?_, hL, ?_⟩
      · simp only [Atom.revertAdd, revertAddVertex, getOrCreateIdSet_eq, store_create, hh.trans had, hd, ok_bind,
          Bool.not_true, Bool.false_eq_true, if_false]
        rfl
      · exact (if_pos (by simp [Atom.id, Atom.tree, Atom.skipped, had])).mpr ⟨rfl, congrArg (· + -v.size) hsz⟩
    | false =>
      refine ⟨_, txn, B, ?_, hL₁, ?_⟩
      · simp [Atom.revertAdd, revertAddVertex, hh.trans had]
      · exact (if_neg (by simp [Atom.id, Atom.tree, had])).mpr ⟨rfl, rfl⟩
  | hyperedge e =>
    obtain ⟨hg', txn', hd, hL, hsz⟩ := h.delete_resize htxn .hyperedge .adds
      (shardKeyOf c.shake e.appAddress) e.length_id (-e.getSize)
    have hL₁ := h.create .hyperedge (shardKeyOf c.shake e.appAddress)
    have hh : ∀ p, (hg.set ⟨.hyperedge, p, shardKeyOf c.shake e.appAddress⟩).has hg.store e.id =
        (B (e.tree c p) e.id).isSome := fun p => h.has_eq htxn e.length_id
    cases had : (B (e.tree c .adds) e.id).isSome with
    | true =>
      cases hr : (B (e.tree c .removes) e.id).isSome with
      | true =>
        refine ⟨_, txn, B, ?_, hL₁, ?_⟩
        · simp [Atom.revertAdd, revertAddHyperedge, (hh _).trans had, (hh _).trans hr]
        · exact (if_neg (by simp [Atom.skipped, hr])).mpr ⟨rfl, rfl⟩
      | false =>
        refine ⟨_, txn', _, ?_, hL, ?_⟩
        · simp only [Atom.revertAdd, revertAddHyperedge, getOrCreateIdSet_eq, store_create, (hh _).trans had, (hh _).trans hr, hd,
            ok_bind, Bool.not_true, Bool.not_false, Bool.false_eq_true, if_false, if_true]
          rfl
        · exact (if_pos (by simp [Atom.id, Atom.tree, Atom.skipped, had, hr])).mpr
            ⟨rfl, congrArg (· + -e.getSize) hsz⟩
    | false =>
      refine ⟨_, txn, B, ?_, hL₁, ?_⟩
      · simp [Atom.revertAdd, revertAddHyperedge, (hh _).trans had]
      · exact (if_neg (by simp [Atom.id, Atom.tree, had])).mpr ⟨rfl, rfl⟩

end

end

/-! ### Records of changes -/

theorem not_owns_changeType (tree tree' : TreeId) (rest : Bytes) :
    ¬tree'.Owns (shardRecordKey tree.changeType tree.shardKey rest) := by
  rintro ⟨tag, rest, ht, heq⟩
  obtain ⟨ht', -, -⟩ := shardRecordKey_inj heq
  subst ht'
  obtain ⟨_ | _, _ | _, s⟩ := tree <;> obtain ⟨_ | _, _ | _, s'⟩ := tree' <;> revert ht <;> dsimp only [TreeId.changeType,
    TreeId.nodeTag, TreeId.pathTag, TreeId.rootTag] <;> decide

theorem not_owns_changeRecordKey (tree tree' : TreeId) (frame : Nat) (key : Bytes) :
    ¬tree'.Owns (hypergraphChangeRecordKey tree frame key) := not_owns_changeType tree tree' _

theorem HypergraphCRDT.pending_write (hg : HypergraphCRDT) (txn : Txn) (ws : List Write) :
    pending (hg.write txn ws).1.store (hg.write txn ws).2 = (pending hg.store txn).apply ws := by
  cases txn with
  | none => rfl
  | some batch => exact Db.apply_append _ _ _

theorem Sets.write {ws : List Write} (h : Sets c hg txn B) (hws : ∀ w ∈ ws, ∀ tree : TreeId, ¬tree.Owns w.key) :
    Sets c (hg.write txn ws).1 (hg.write txn ws).2 B := by
  refine ⟨fun tree => ?_, h.named, h.typed, h.covered, h.listed, h.nodup⟩
  rw [hg.pending_write]
  have hsm : ∀ k, tree.Owns k → ((pending hg.store txn).apply ws).get k = (pending hg.store txn).get k := fun k hk =>
    Db.get_apply_of_untouched _ fun w hw heq => hws w hw tree (heq ▸ hk)
  have hst := h.stores tree
  refine hst.frame (hst.backed.frame (fun k hk => hsm k (TreeId.owns_indexed ?_)) fun k => hsm _ ?_)
  · rw [h.named tree] at hk
    exact hk
  · rw [h.named tree]
    exact tree.owns_nodeKey k

/-! ### `RevertChanges` -/

/-- The atom that the old value of a change stands for. -/
def oldAtom (c : Crypto) (m : AtomType) (key : Bytes) (oldValue : VectorCommitmentTree) : Except Fault Atom :=
  match m with
  | .vertex => do
    let v ← HypergraphCRDT.oldVertex c key oldValue
    .ok (.vertex v)
  | .hyperedge => do
    let h ← HypergraphCRDT.oldHyperedge key oldValue
    .ok (.hyperedge h)

theorem restore_eq (m : AtomType) (key : Bytes) (oldValue : VectorCommitmentTree) :
    restore c m key oldValue hg txn = (oldAtom c m key oldValue >>= fun a => a.add c hg txn) := by
  cases m with
  | vertex =>
    simp only [restore, oldAtom]
    cases oldVertex c key oldValue <;> rfl
  | hyperedge =>
    simp only [restore, oldAtom]
    cases oldHyperedge key oldValue <;> rfl

theorem oldAtom_id {m : AtomType} {key : Bytes} {oldValue : VectorCommitmentTree} {a : Atom} (hk : key.length = 64)
    (h : oldAtom c m key oldValue = .ok a) : a.id = key := by
  have happ : ∀ {b : Bytes} {x : Address}, toAddress b = .ok x → x.bytes = b.take 32 := fun {b x} hx => by
    unfold toAddress at hx
    split at hx
    · cases hx
      rfl
    · cases hx
  have hid : ∀ {x y : Address}, toAddress (key.take 32) = .ok x →
      toAddress (key.drop 32) = .ok y → atomId x y = key := fun {x y} hx hy => by
    rw [atomId, happ hx, happ hy, List.take_take, Nat.min_self,
      List.take_of_length_le (by rw [List.length_drop, hk] : (key.drop 32).length ≤ 32), List.take_append_drop]
  cases m with
  | vertex =>
    obtain ⟨v, hv, ha⟩ := bind_eq_ok.mp h
    cases ha
    obtain ⟨x, hx, hv⟩ := bind_eq_ok.mp hv
    obtain ⟨y, hy, hv⟩ := bind_eq_ok.mp hv
    split at hv
    · cases hv
      exact hid hx hy
    · cases hv
  | hyperedge =>
    obtain ⟨e, he, ha⟩ := bind_eq_ok.mp h
    cases ha
    obtain ⟨x, hx, he⟩ := bind_eq_ok.mp he
    obtain ⟨y, hy, he⟩ := bind_eq_ok.mp he
    cases he
    exact hid hx hy

theorem Sets.deleteInTree (h : Sets c hg txn B) (hr : hg.Read B ∨ B tree id ≠ none) (hk : id.length = 64)
    {result : HypergraphCRDT × Txn × Option String}
    (hrun : deleteInTree c.sha3 tree id hg txn = .ok result) :
    result.2.2 = none ∧ Leaves c hg txn result.1 result.2.1 (B.unbind tree id) ∧ result.1.size = hg.size := by
  simp only [HypergraphCRDT.deleteInTree] at hrun
  split at hrun
  · cases hrun
  next set hs =>
    have hs' : hg.set tree = set := by
      simp [HypergraphCRDT.set, setOr, hs]
    obtain ⟨root, db', txn', hd, hL⟩ := h.deleteIn tree hr hk
    rw [hs'] at hd hL
    rw [hd, ok_bind] at hrun
    cases hrun
    exact ⟨rfl, hL set.dirty, rfl⟩

def revertOne (c : Crypto) (B : Bindings) (x : TreeId × ChangeRecord) : Bindings :=
  match x.1.phaseType, x.2.oldValue with
  | .adds, some oldValue =>
    match oldAtom c x.1.setType x.2.key oldValue with
    | .ok a => if a.skipped c B then B else B.bind (a.tree c .adds) (a.item c)
    | .error _ => B
  | _, _ => B.unbind x.1 x.2.key

/-- What reverting a change adds to the size of the hypergraph: that of an atom that is put back, and nothing for a
    deletion. -/
def revertGain (c : Crypto) (B : Bindings) (x : TreeId × ChangeRecord) : Int :=
  match x.1.phaseType, x.2.oldValue with
  | .adds, some oldValue =>
    match oldAtom c x.1.setType x.2.key oldValue with
    | .ok a => if a.skipped c B then 0 else a.size
    | .error _ => 0
  | _, _ => 0

theorem Sets.revertChange (h : Sets c hg txn B) (htxn : txn.getD [] = []) (x : TreeId × ChangeRecord)
    (hk : x.2.key.length = 64) (hc : hg.covers x.2.key = true) {result : HypergraphCRDT × Txn × Option String}
    (hrun : revertChange c x.1 x.2 hg txn = .ok result) :
    result.2.2 = none ∧ Sets c result.1 result.2.1 (revertOne c B x) ∧ result.1.coveredPrefix = hg.coveredPrefix ∧
      result.2.1.isSome = txn.isSome ∧ result.1.size = hg.size + revertGain c B x := by
  obtain ⟨tree, key, oldValue, frame⟩ := x
  have finish : ∀ {first : HypergraphCRDT.Step} {B' : Bindings} {gain : Int},
      (∀ {r}, first hg txn = .ok r → r.2.2 = none ∧ Leaves c hg txn r.1 r.2.1 B' ∧ r.1.size = hg.size + gain) →
      (first.andThen (HypergraphCRDT.untrackChange tree key frame)) hg txn = .ok result →
      result.2.2 = none ∧ Sets c result.1 result.2.1 B' ∧ result.1.coveredPrefix = hg.coveredPrefix ∧
        result.2.1.isSome = txn.isSome ∧ result.1.size = hg.size + gain := by
    intro first B' gain hfr hrun
    obtain ⟨⟨hg₁, txn₁, err⟩, hr, hrs⟩ := bind_eq_ok.mp hrun
    obtain ⟨herr, hL, hsz⟩ := hfr hr
    subst herr
    have hsm : (hg₁.write txn₁ (untrackChange tree key frame)).2.isSome = txn.isSome := by
      rw [← hL.isSome]
      cases txn₁ <;> rfl
    cases hrs
    refine ⟨rfl, hL.sets.write fun w hw tree' => ?_, hL.coveredPrefix, hsm, hsz⟩
    obtain rfl := List.mem_singleton.mp hw
    exact not_owns_changeRecordKey tree tree' frame key
  have hd : ∀ {r : HypergraphCRDT × Txn × Option String}, HypergraphCRDT.deleteInTree c.sha3 tree key hg txn = .ok r →
      r.2.2 = none ∧ Leaves c hg txn r.1 r.2.1 (B.unbind tree key) ∧ r.1.size = hg.size + 0 := fun {r} hr => by
    rw [Int.add_zero]
    exact h.deleteInTree (.inl (h.read htxn)) hk hr
  obtain ⟨m, _ | _, s⟩ := tree
  · cases oldValue with
    | none => exact finish hd hrun
    | some old =>
      refine finish (fun {r} hr => ?_) hrun
      have hres : restore c m key old hg txn = .ok r := hr
      rw [restore_eq] at hres
      obtain ⟨a, ha, hadd⟩ := bind_eq_ok.mp hres
      obtain ⟨hg', txn', err, B', hadd', hL, herr, hB⟩ := h.add htxn a
      cases hadd.symm.trans hadd'
      have hid := oldAtom_id hk ha
      have hc' : hg.covers a.id = true := by
        rw [hid]
        exact hc
      have hnn : err = none := by
        by_contra hne
        exact absurd ((herr hne).2.symm.trans hc') Bool.false_ne_true
      have ho : revertOne c B (⟨m, .adds, s⟩, ⟨key, some old, frame⟩) = B' ∧
          hg'.size = hg.size + revertGain c B (⟨m, .adds, s⟩, ⟨key, some old, frame⟩) := by
        simp only [revertOne, revertGain, ha]
        rcases hB with ⟨rfl, hsz, hsk | hsk⟩ | ⟨-, rfl, hsz, hsk⟩
        · rw [if_pos hsk, if_pos hsk]
          exact ⟨rfl, hsz.trans (Int.add_zero _).symm⟩
        · exact absurd (hsk.symm.trans hc') Bool.false_ne_true
        · rw [if_neg (by simp [hsk]), if_neg (by simp [hsk])]
          exact ⟨rfl, hsz⟩
      exact ⟨hnn, ho.1 ▸ hL, ho.2⟩
  · cases oldValue with
    | none | some old => exact finish hd hrun

end

end Quilibrium
