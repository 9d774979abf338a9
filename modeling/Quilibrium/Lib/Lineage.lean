import Mathlib.Data.List.Nodup

/-! # Lineages

The lineage of a node is the walk along the parents up to a node that has none. -/

namespace Lineage

variable {α : Type} (parent : α → Option α) (depth : α → Nat)

/-- The node and at most `fuel` of its ancestors, the nearest first. -/
def walk : Nat → α → List α
  | 0, x => [x]
  | fuel + 1, x =>
    x :: match parent x with
      | none => []
      | some p => walk fuel p

/-- The whole walk: the depth bounds its length. -/
def lineage (x : α) : List α := walk parent (depth x) x

def Graded : Prop := ∀ x p, parent x = some p → depth x = depth p + 1

/-- The nodes of a list up to `stop`, which is the last one taken. -/
def through [DecidableEq α] (stop : α) : List α → List α
  | [] => []
  | x :: rest => if x = stop then [x] else x :: through stop rest

theorem through_eq [DecidableEq α] {stop : α} {l : List α} (h : stop ∈ l) :
    through stop l = l.takeWhile (· ≠ stop) ++ [stop] := by
  induction l with
  | nil => cases h
  | cons x rest ih =>
    rw [through, List.takeWhile_cons]
    by_cases hx : x = stop
    · simp [hx]
    · simpa [hx] using ih ((List.mem_cons.mp h).resolve_left fun heq => hx heq.symm)

variable {parent depth} {x y z p : α}

theorem lineage_none (h : parent x = none) : lineage parent depth x = [x] := by
  rw [lineage]
  cases depth x with
  | zero => rfl
  | succ n => rw [walk, h]

variable (hg : Graded parent depth)
include hg

theorem lineage_some (h : parent x = some p) : lineage parent depth x = x :: lineage parent depth p := by
  rw [lineage, hg x p h, walk, h]
  rfl

theorem induct {motive : α → Prop} (root : ∀ x, parent x = none → motive x)
    (child : ∀ x p, parent x = some p → motive p → motive x) (x : α) : motive x := by
  generalize hd : depth x = d
  induction d generalizing x with
  | zero =>
    refine root x (Option.eq_none_iff_forall_ne_some.mpr fun p hp => ?_)
    have := hg x p hp
    omega
  | succ d ih =>
    cases hp : parent x with
    | none => exact root x hp
    | some p =>
      have := hg x p hp
      exact child x p hp (ih p (by omega))

theorem self_mem (x : α) : x ∈ lineage parent depth x := by
  cases hp : parent x with
  | none => simp [lineage_none hp]
  | some p => simp [lineage_some hg hp]

theorem mem_lineage_some (h : parent x = some p) : y ∈ lineage parent depth x ↔ y = x ∨ y ∈ lineage parent depth p := by
  rw [lineage_some hg h, List.mem_cons]

section
variable (h : y ∈ lineage parent depth x)
include h

theorem eq_or_depth_lt : y = x ∨ depth y < depth x := by
  induction x using induct hg with
  | root x hp => exact .inl (by simpa [lineage_none hp] using h)
  | child x p hp ih =>
    have hd := hg x p hp
    rcases (mem_lineage_some hg hp).mp h with h | h
    · exact .inl h
    · rcases ih h with rfl | h
      · exact .inr (by omega)
      · exact .inr (by omega)

theorem depth_le : depth y ≤ depth x := by
  rcases eq_or_depth_lt hg h with rfl | h
  · exact Nat.le_refl _
  · exact Nat.le_of_lt h

theorem lineage_eq_append [DecidableEq α] :
    lineage parent depth x = (lineage parent depth x).takeWhile (· ≠ y) ++ lineage parent depth y := by
  induction x using induct hg with
  | root x hp =>
    rw [lineage_none hp, List.mem_singleton] at h
    simp [h, lineage_none hp]
  | child x p hp ih =>
    by_cases hx : x = y
    · rw [← hx, lineage_some hg hp]
      simp
    · have hm : y ∈ lineage parent depth p := ((mem_lineage_some hg hp).mp h).resolve_left fun heq => hx heq.symm
      rw [lineage_some hg hp, List.takeWhile_cons_of_pos (by simpa using hx), List.cons_append, ← ih hm]

end

theorem trans (hy : y ∈ lineage parent depth x) (hz : z ∈ lineage parent depth y) : z ∈ lineage parent depth x := by
  classical
  rw [lineage_eq_append hg hy]
  exact List.mem_append_right _ hz

theorem mem_of_depth_le (hy : y ∈ lineage parent depth x) (hz : z ∈ lineage parent depth x) (h : depth y ≤ depth z) :
    y ∈ lineage parent depth z := by
  induction x using induct hg with
  | root x hp =>
    rw [lineage_none hp, List.mem_singleton] at hy hz
    rw [hy, hz]
    exact self_mem hg x
  | child x p hp ih =>
    rcases (mem_lineage_some hg hp).mp hz with rfl | hz
    · exact hy
    · rcases (mem_lineage_some hg hp).mp hy with hy | hy
      · have := depth_le hg hz
        have := hg x p hp
        rw [hy] at h
        omega
      · exact ih hy hz

end Lineage
