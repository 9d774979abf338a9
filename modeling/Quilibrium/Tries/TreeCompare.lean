import Quilibrium.Lib.Except
import Quilibrium.Tries.LazyProofTree

/-! # Comparison of trees

`CompareTreesAtHeight` of `types/tries/tree_compare.go`, which looks at nodes in memory only. -/

namespace Quilibrium
open Radix Except List

/-- `ComparisonResult`. Its path is not set. -/
structure ComparisonResult where
  height : Nat
  commit1 : Bytes
  commit2 : Bytes
  deriving DecidableEq

def ComparisonResult.Matches (r : ComparisonResult) : Prop := r.commit1 = r.commit2

namespace LazyNode

def getHeight : LazyNode → Nat
  | .nil => 0
  | .leaf _ => 0
  | .branch n children => (finRange 64).foldl (fun m i => max m (getHeight (children i))) 0 + 1 + n.pfx.length

/-- What `compareLevelCommits` does at the target height. The second commitment is read from the first node. -/
def compareCommits (height : Nat) (node1 node2 : LazyNode) : Except Fault ComparisonResult :=
  if node2.isNil then .ok ⟨height, commitment node1, []⟩
  else if node1.isNil then .error .logPanic
  else .ok ⟨height, commitment node1, commitment node1⟩

/-- How `compareLevelCommits` gets there: it goes down where both nodes are branches. -/
def levelPairs (targetHeight : Nat) : LazyNode → LazyNode → Nat → List (LazyNode × LazyNode)
  | .branch n1 children1, .branch n2 children2, currentHeight =>
    if currentHeight = targetHeight then [(.branch n1 children1, .branch n2 children2)]
    else if currentHeight + n1.pfx.length < targetHeight then (finRange 64).flatMap fun i =>
      levelPairs targetHeight (children1 i) (children2 i) (currentHeight + n1.pfx.length + 1)
    else []
  | node1, node2, currentHeight =>
    if node1.isNil && node2.isNil then [] else if currentHeight = targetHeight then [(node1, node2)] else []

variable (root1 root2 : LazyNode)

def heights : List Nat := range (max (getHeight root1) (getHeight root2) + 1)

def compareTreesAtHeight : Except Fault (List (List ComparisonResult)) :=
  (heights root1 root2).mapM fun height =>
    (levelPairs height root1 root2 0).mapM fun p => compareCommits height p.1 p.2

/-! ### What the results say -/

/-- Each pair of nodes gives an entry with both commitments, and entries differ exactly if the roots do. -/
def Compared : Prop :=
  ∃ levels, compareTreesAtHeight root1 root2 = .ok levels ∧
    levels = (heights root1 root2).map (fun height => (levelPairs height root1 root2 0).map
      fun p => ⟨height, commitment p.1, commitment p.2⟩) ∧
    (commitment root1 ≠ commitment root2 → ∃ level ∈ levels, ∃ r ∈ level, ¬r.Matches) ∧
    (commitment root1 = commitment root2 → ∀ level ∈ levels, ∀ r ∈ level, r.Matches)

/-- Nodes that are compared with each other. -/
def Meet (node1 node2 : LazyNode) : Prop :=
  ∃ height ∈ heights root1 root2, (node1, node2) ∈ levelPairs height root1 root2 0

variable {root1 root2}

theorem compareCommits_eq {height : Nat} {node1 node2 : LazyNode} :
    compareCommits height node1 node2 = .ok ⟨height, commitment node1, commitment node2⟩ ↔
      node2.isNil ∨ ¬node1.isNil ∧ commitment node1 = commitment node2 := by
  unfold compareCommits
  cases node2 <;> cases node1 <;> simp [Trie.isNil, commitment]

theorem meet_roots (h : commitment root1 ≠ commitment root2) : (root1, root2) ∈ levelPairs 0 root1 root2 0 := by
  cases root1 <;> cases root2 <;> simp_all [levelPairs, Trie.isNil]

/-- The comparison is right exactly if the first tree has a node with the same commitment wherever the second has one,
    and, if the roots agree, the first has no others. -/
theorem compared_iff : Compared root1 root2 ↔
    (∀ node1 node2, Meet root1 root2 node1 node2 →
      node2.isNil ∨ ¬node1.isNil ∧ commitment node1 = commitment node2) ∧
    (commitment root1 = commitment root2 → ∀ node1 node2, Meet root1 root2 node1 node2 →
      commitment node1 = commitment node2) := by
  have hok : compareTreesAtHeight root1 root2 = .ok ((heights root1 root2).map fun height =>
      (levelPairs height root1 root2 0).map fun p => ⟨height, commitment p.1, commitment p.2⟩) ↔
      ∀ node1 node2, Meet root1 root2 node1 node2 → node2.isNil ∨ ¬node1.isNil ∧ commitment node1 = commitment node2 := by
    simp only [compareTreesAtHeight, mapM_map_ok, compareCommits_eq, Prod.forall]
    exact ⟨fun h a b ⟨n, hn, hp⟩ => h n hn a b hp, fun h n hn a b hp => h a b ⟨n, hn, hp⟩⟩
  rw [← hok]
  constructor
  · rintro ⟨levels, hlevels, rfl, -, hsame⟩
    refine ⟨hlevels, fun heq a b ⟨n, hn, hp⟩ => ?_⟩
    exact hsame heq _ (mem_map_of_mem hn) _ (mem_map_of_mem hp)
  · rintro ⟨hlevels, hsame⟩
    refine ⟨_, hlevels, rfl, fun hne => ?_, fun heq => ?_⟩
    · exact ⟨_, mem_map_of_mem (mem_range.mpr (Nat.succ_pos _)), _, mem_map_of_mem (meet_roots hne), hne⟩
    · simp only [forall_mem_map]
      exact fun n hn p hp => hsame heq p.1 p.2 ⟨n, hn, hp⟩

/-- Two committed leaves that differ are taken to match. -/
theorem not_compared : ¬Compared (.leaf ⟨⟨[0], [], [], 0⟩, [1]⟩) (.leaf ⟨⟨[0], [], [], 0⟩, [2]⟩) := by
  rintro ⟨levels, hlevels, rfl, -⟩
  exact absurd (ok.inj hlevels) (by decide)

end LazyNode

end Quilibrium
