import Mathlib.Data.Finset.Card
import Mathlib.Tactic.Common

/-! Counting voters: how large two sets of voters must be for an honest one to be in both. -/

namespace Finset

variable {α : Type} [DecidableEq α] {all s t : Finset α}

omit [DecidableEq α] in
/-- With fewer than a third faulty, a set has an honest member for sure if and only if it has at least a third. -/
theorem exists_honest_iff : (∀ faulty : Finset α, 3 * faulty.card < all.card → ∃ x ∈ s, x ∉ faulty) ↔
    all.card ≤ 3 * s.card := by
  constructor
  · intro h
    by_contra hlt
    obtain ⟨x, hx, hx'⟩ := h s (not_le.mp hlt)
    exact hx' hx
  · intro h faulty hfau
    exact exists_mem_notMem_of_card_lt_card (by omega)

theorem card_le_three_mul_card_inter (hs : s ⊆ all) (ht : t ⊆ all) (hs' : 2 * all.card ≤ 3 * s.card)
    (ht' : 2 * all.card ≤ 3 * t.card) : all.card ≤ 3 * (s ∩ t).card := by
  have hsum := card_union_add_card_inter s t
  have hun := card_le_card (union_subset hs ht)
  omega

end Finset
