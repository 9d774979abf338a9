import Mathlib.Algebra.Ring.Nat
import Mathlib.Data.List.Flatten

/-! # Records as concatenations

A record whose fields are concatenated without their lengths: the concatenation determines it among those whose fields
have given lengths. -/

namespace Quilibrium

/-- A record as segments of symbols and a part of fixed form beside them. Among the checked records of given lengths is
    one whose segments repeat one symbol. -/
structure Layout (α Record : Type) where
  segments : Record → List (List α)
  beside : Record → List α
  covered : Record → Record
  Checked : Record → Prop
  covered_eq : ∀ {h h'}, Checked h → Checked h' → segments h = segments h' → beside h = beside h' → covered h = covered h'
  segments_covered : ∀ h, segments (covered h) = segments h
  symbol : α
  constant : Record → Record
  segments_constant : ∀ h, segments (constant h) = (segments h).map fun segment => List.replicate segment.length symbol
  beside_constant : ∀ h h', beside (constant h) = beside (constant h')
  checked_constant : ∀ {h}, Checked h → Checked (constant h)

namespace Layout
variable {α Record : Type} (L : Layout α Record)

def lengths (h : Record) : List Nat := (L.segments h).map List.length

def concatenation (h : Record) : List α := (L.segments h).flatten

/-- Records with the lengths of these two are told apart by their concatenations and what stands beside them. -/
def Unambiguous (g g' : Record) : Prop :=
  ∀ h h', L.Checked h → L.Checked h' → L.lengths h = L.lengths g → L.lengths h' = L.lengths g' →
    L.concatenation h = L.concatenation h' → L.beside h = L.beside h' → L.covered h = L.covered h'

theorem length_concatenation (h : Record) : (L.concatenation h).length = (L.lengths h).sum := List.length_flatten

theorem lengths_constant (h : Record) : L.lengths (L.constant h) = L.lengths h := by
  rw [lengths, L.segments_constant, List.map_map]
  exact List.map_congr_left fun segment _ => List.length_replicate

theorem concatenation_constant (h : Record) :
    L.concatenation (L.constant h) = List.replicate (L.concatenation h).length L.symbol := by
  rw [List.eq_replicate_iff]
  refine ⟨?_, fun b hb => ?_⟩
  · rw [length_concatenation, length_concatenation, lengths_constant]
  · rw [concatenation, L.segments_constant] at hb
    obtain ⟨segment, hs, hb⟩ := List.mem_flatten.mp hb
    obtain ⟨_, -, rfl⟩ := List.mem_map.mp hs
    exact List.eq_of_mem_replicate hb

/-- Constant records of different lengths collide as soon as they are equally long. -/
theorem not_unambiguous {g g' : Record} (hg : L.Checked g) (hg' : L.Checked g') (hl : L.lengths g ≠ L.lengths g')
    (hlg : (L.concatenation g).length = (L.concatenation g').length) : ¬L.Unambiguous g g' := by
  intro hun
  have hc : L.concatenation (L.constant g) = L.concatenation (L.constant g') := by
    rw [concatenation_constant, concatenation_constant, hlg]
  have hcov := hun _ _ (L.checked_constant hg) (L.checked_constant hg') (L.lengths_constant g)
    (L.lengths_constant g') hc (L.beside_constant g g')
  refine hl ?_
  rw [← lengths_constant, ← L.lengths_constant g', lengths, lengths, ← L.segments_covered, hcov, L.segments_covered]

theorem unambiguous_iff {g g' : Record} (hg : L.Checked g) (hg' : L.Checked g') :
    L.Unambiguous g g' ↔ L.lengths g = L.lengths g' ∨ (L.concatenation g).length ≠ (L.concatenation g').length := by
  constructor
  · intro hun
    by_cases hlen : L.lengths g = L.lengths g'
    · exact .inl hlen
    · exact .inr fun hlg => L.not_unambiguous hg hg' hlen hlg hun
  · intro hcs h h' hc hc' hl hl' hcon hb
    have hlg : (L.concatenation g).length = (L.concatenation g').length := by
      rw [length_concatenation, length_concatenation, ← hl, ← hl', ← length_concatenation, ← length_concatenation, hcon]
    have hlen := hcs.resolve_right fun hne => hne hlg
    exact L.covered_eq hc hc' (List.eq_iff_flatten_eq.mpr ⟨hcon, hl.trans (hlen.trans hl'.symm)⟩) hb

end Layout

end Quilibrium
