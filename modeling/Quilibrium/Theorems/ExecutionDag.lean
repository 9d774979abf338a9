import Quilibrium.Execution.ComputeIntrinsic
import Quilibrium.Theorems.TreeRun

/-! Execution graphs and what is stored of them. The stored graph depends on the order of a range over a map, and the keys of
    the operations are bytes. -/

namespace Quilibrium
open ExecutionDAG List Function

namespace ComputeIntrinsic

variable (r r' : MapRanges) {ops : List ExecuteOperation} {op : CodeExecute} {dag : ExecutionDAG}

/-! ### Records that can be read back -/

/-- The tree was built from items with different keys. -/
def Stored (items : List (Bytes × Bytes)) (tree : VectorCommitmentTree) : Prop :=
  ∃ b, Holds (Digest.zeros 64) .transparent 1 b tree ∧ ∀ item ∈ items, b item.1 = some ⟨item.1, item.2, [], item.2.length⟩

theorem treeOf_get {items : List (Bytes × Bytes)} (hk : ∀ item ∈ items, item.1.length = 1) (hnd : (items.map (·.1)).Nodup) :
    ∃ tree, treeOf items = .ok (.ok tree) ∧ ∀ item ∈ items, tree.get item.1 = .ok (.ok item.2) := by
  obtain ⟨_, hr, tree, rfl, b, hh, hb⟩ : ∃ acc, treeOf items = .ok acc ∧ ∃ tree, acc = .ok tree ∧ Stored items tree := by
    refine List.foldlM_ok_of_inv (fun done acc => ∃ tree, acc = Except.ok tree ∧ Stored done tree)
      ⟨_, rfl, _, holds_empty .., nofun⟩ ?_
    rintro done item rest _ hl ⟨tree, rfl, b, hh, hb⟩
    have hik : (⟨item.1, item.2, [], item.2.length⟩ : Item).key.length = 1 := hk item (by simp [hl])
    obtain ⟨tree', hins, hh', -⟩ := hh.insert Nat.one_pos hik
    refine ⟨.ok tree', by simp [hins], tree', rfl, _, hh', fun x hx => ?_⟩
    rcases mem_append.mp hx with hx | hx
    · have hne : x.1 ≠ item.1 := by
        rw [hl, map_append, map_cons] at hnd
        exact (nodup_append.mp hnd).2.2 _ (mem_map_of_mem hx) _ mem_cons_self
      exact (update_of_ne hne _ _).trans (hb x hx)
    · rw [mem_singleton.mp hx]
      exact update_self ..
  refine ⟨tree, hr, fun item hm => ?_⟩
  rw [hh.get Nat.one_pos (hk item hm), hb item hm]

theorem executionItems_keys (op : CodeExecute) (dag : ExecutionDAG) :
    (executionItems r op dag).map (·.1) = (range (op.executeOperations.length + 3)).map indexKey := by
  have hz : (op.executeOperations.zipIdx.map fun op => indexKey (op.2 + 3)) =
      (range op.executeOperations.length).map fun i => indexKey (i + 3) := by
    refine ext_getElem (by simp) fun i hi _ => by simp
  simp [executionItems, Function.comp_def, hz, range_succ_eq_map]

theorem indexKey_inj : ∀ i < 64, ∀ j < 64, indexKey i = indexKey j → i = j := by decide +kernel

/-! ### One operation -/

theorem keys_eq (site : RangeSite) {l : List Bytes} (h : l.length ≤ 1) : r.keys site l = l := by
  match l with
  | [] => exact (r.perm site []).eq_nil
  | [a] => exact perm_singleton.mp (r.perm site [a])

theorem detectCycle_congr (h : ∀ id, (dependenciesOf ops id).length ≤ 1) (fuel : Nat) (id : Bytes)
    (visited recStack : List Bytes) : detectCycle r ops fuel id visited recStack = detectCycle r' ops fuel id visited recStack := by
  induction fuel generalizing id visited recStack with
  | zero => rfl
  | succ fuel ih => simp only [detectCycle, keys_eq r _ (h id), keys_eq r' _ (h id), ih]

theorem computeStagesFrom_congr (hl : ops.length ≤ 1) (fuel : Nat) (currentStage visited : List Bytes) (stage : Bytes → Nat)
    (stages : List (List Bytes)) : computeStagesFrom r ops fuel currentStage visited stage stages =
      computeStagesFrom r' ops fuel currentStage visited stage stages := by
  have hd : ∀ id, (dependentsOf ops id).length ≤ 1 := fun id => by
    simpa [dependentsOf, identifiers] using (length_filter_le _ ops).trans hl
  induction fuel generalizing currentStage visited stage stages with
  | zero => rfl
  | succ fuel ih => simp only [computeStagesFrom, keys_eq r _ (hd _), keys_eq r' _ (hd _), ih]

def Closed (ops : List ExecuteOperation) : Prop := ∀ op ∈ ops, ∀ depID ∈ op.dependencies, depID ∈ identifiers ops

theorem eraseDups_length_le {l : List Bytes} {x : Bytes} (h : ∀ a ∈ l, a = x) : l.eraseDups.length ≤ 1 := by
  cases l with
  | nil => simp
  | cons a l =>
    have hnil : l.filter (fun b => !b == a) = [] := by
      refine filter_eq_nil_iff.mpr fun b hb => ?_
      simp [h a mem_cons_self, h b (mem_cons_of_mem a hb)]
    simp [eraseDups_cons, hnil]

theorem Closed.dependencies (h : Closed ops) (hl : ops.length ≤ 1) (id : Bytes) : (dependenciesOf ops id).length ≤ 1 := by
  match ops, hl with
  | [], _ => simp [dependenciesOf, find]
  | [op], _ =>
    have hle := eraseDups_length_le fun dep hdep => by simpa [identifiers] using h op (mem_singleton_self op) dep hdep
    by_cases hid : op.identifier = id
    · simpa [dependenciesOf, find, hid, ExecuteOperation.dependencySet] using hle
    · simp [dependenciesOf, find, hid]

theorem build_congr (hl : ops.length ≤ 1) : build r ops = build r' ops := by
  have hid : (identifiers ops).length ≤ 1 := by simpa [identifiers] using hl
  unfold build
  split_ifs
  · rfl
  · rfl
  · dsimp only
    split
    · rfl
    next hmiss =>
      have hcl : Closed ops := by simpa [Closed] using hmiss
      simp only [validateNoCycles, computeStages, optimizeStagesWithConflicts, keys_eq _ _ hid, detectCycle_congr r r' (hcl.dependencies hl),
        computeStagesFrom_congr r r' hl]
  · rfl

theorem build_ok (h : build r ops = .ok (.ok dag)) : dag.operations = ops ∧ Closed ops := by
  unfold build at h
  split_ifs at h
  · cases h
  · cases h
  · dsimp only at h
    split at h
    · cases h
    next hmiss =>
      refine ⟨?_, by simpa [Closed] using hmiss⟩
      obtain ⟨acyclic, -, h⟩ := Except.bind_eq_ok.mp h
      split at h
      · cases h
      · obtain ⟨computed, -, h⟩ := Except.bind_eq_ok.mp h
        split at h
        · cases h
        · split at h
          · cases h
          · cases h
            rfl
  · cases h

theorem executionItems_congr (hl : ops.length ≤ 1) (h : build r ops = .ok (.ok dag)) :
    executionItems r op dag = executionItems r' op dag := by
  obtain ⟨rfl, hcl⟩ := build_ok r h
  have hid : (identifiers dag.operations).length ≤ 1 := by simpa [identifiers] using hl
  simp only [executionItems, serialize, keys_eq _ _ hid, keys_eq _ _ (hcl.dependencies hl _)]

/-- The graph is read back from the record. -/
def graphOf (r : MapRanges) (op : CodeExecute) : Option (Except Fault (Except String Bytes)) := do
  let dag ← (← (build r op.executeOperations).toOption).toOption
  let tree ← (← (treeOf (executionItems r op dag)).toOption).toOption
  tree.get (indexKey 1)

def forwards : MapRanges := ⟨fun _ l => l, fun _ _ => .refl _⟩

def backwards : MapRanges := ⟨fun _ l => l.reverse, fun _ l => l.reverse_perm⟩

def twoOperations : CodeExecute :=
  ⟨(replicate 56 0, []), .zero, .zero, [⟨[], .intrinsic, [1], []⟩, ⟨[], .intrinsic, [2], []⟩]⟩

end ComputeIntrinsic

end Quilibrium
