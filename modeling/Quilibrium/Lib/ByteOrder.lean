import Mathlib.Data.List.Lex
import Mathlib.Order.Lattice

/-! The order of byte strings, as ordered key-value stores compare them. -/

instance UInt8.linearOrder : LinearOrder UInt8 where
  le_refl := UInt8.le_refl
  le_trans _ _ _ := UInt8.le_trans
  le_antisymm _ _ := UInt8.le_antisymm
  le_total := UInt8.le_total
  toDecidableLE := inferInstance
  lt_iff_le_not_ge a b := by
    rw [UInt8.le_iff_toNat_le, UInt8.le_iff_toNat_le, UInt8.lt_iff_toNat_lt]
    omega

namespace List

variable {α : Type} [LinearOrder α] {p q k : List α}

theorem prefix_le (h : p <+: k) : p ≤ k := by
  obtain ⟨s, rfl⟩ := h
  induction p with
  | nil =>
    cases s with
    | nil => exact le_rfl
    | cons a s => exact le_of_lt Lex.nil
  | cons a p ih => exact cons_le_cons a ih

theorem append_lt_append_iff (p : List α) {s t : List α} : p ++ s < p ++ t ↔ s < t := by
  induction p with
  | nil => rfl
  | cons a p ih => simp [ih]

theorem append_lt_append_of_lt (hl : p.length = q.length) (h : p < q) (s t : List α) : p ++ s < q ++ t := by
  induction p generalizing q with
  | nil =>
    cases q with
    | nil => exact absurd h (lt_irrefl _)
    | cons b q => cases hl
  | cons a p ih =>
    cases q with
    | nil => cases hl
    | cons b q =>
      rw [cons_append, cons_append, cons_lt_cons_iff]
      exact (cons_lt_cons_iff.mp h).imp_right fun ⟨hab, hpq⟩ => ⟨hab, ih (Nat.succ.inj hl) hpq⟩

theorem prefix_of_le_of_lt (hle : p ≤ k) (hlt : k < p ++ q) : p <+: k := by
  induction p generalizing k with
  | nil => exact nil_prefix
  | cons a p ih =>
    cases k with
    | nil => exact absurd hle (not_le_of_gt Lex.nil)
    | cons b k =>
      rw [cons_append, cons_lt_cons_iff] at hlt
      rcases le_iff_lt_or_eq.mp hle with hpk | hpk
      · rw [cons_lt_cons_iff] at hpk
        rcases hpk with hab | ⟨rfl, hpk⟩
        · rcases hlt with hba | ⟨rfl, -⟩
          · exact absurd hba hab.asymm
          · exact absurd hab (lt_irrefl _)
        · rcases hlt with hba | ⟨-, hlt⟩
          · exact absurd hba (lt_irrefl _)
          · exact (prefix_cons_inj a).mpr (ih (le_of_lt hpk) hlt)
      · exact hpk ▸ prefix_rfl

end List
