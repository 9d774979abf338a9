import Mathlib.Data.List.FinRange

/-! Lists cut into blocks of one length. -/

namespace List

variable {α : Type} {n c : Nat}

theorem length_flatMap_const {β : Type} (l : List β) (g : β → List α) (h : ∀ b ∈ l, (g b).length = c) :
    (l.flatMap g).length = l.length * c := by
  induction l with
  | nil => simp
  | cons b l ih =>
    rw [flatMap_cons, length_append, h b mem_cons_self, ih fun b hb => h b (mem_cons_of_mem _ hb), length_cons,
      Nat.succ_mul, Nat.add_comm]

theorem take_drop_flatMap_finRange (g : Fin n → List α) (h : ∀ i, (g i).length = c) (i : Fin n) :
    (((finRange n).flatMap g).drop (i * c)).take c = g i := by
  have hi : i.val < (finRange n).length := by rw [length_finRange]; exact i.isLt
  have hsp : finRange n = (finRange n).take i ++ i :: (finRange n).drop (i + 1) := by
    conv_lhs => rw [← take_append_drop i.val (finRange n), drop_eq_getElem_cons hi]
    simp
  have hl : (((finRange n).take i).flatMap g).length = i * c := by
    rw [length_flatMap_const _ g fun b _ => h b, length_take, Nat.min_eq_left hi.le]
  rw [hsp, flatMap_append, flatMap_cons, ← hl, drop_left, ← h i, take_left]

theorem flatMap_injective {β : Type} {g : β → List α} (hlen : ∀ b, (g b).length = c) (hc : 0 < c)
    (hg : Function.Injective g) : Function.Injective fun l : List β => l.flatMap g := by
  intro l
  have hcn : ∀ b (l : List β), (b :: l).flatMap g ≠ [] := by
    intro b l h
    have := congrArg length h
    rw [flatMap_cons, length_append, hlen, length_nil] at this
    omega
  induction l with
  | nil =>
    intro l' h
    cases l' with
    | nil => rfl
    | cons b' l' => exact absurd h.symm (hcn b' l')
  | cons b l ih =>
    intro l' h
    cases l' with
    | nil => exact absurd h (hcn b l)
    | cons b' l' =>
      have h : g b ++ l.flatMap g = g b' ++ l'.flatMap g := h
      obtain ⟨hb, hl⟩ := append_inj h ((hlen b).trans (hlen b').symm)
      rw [hg hb, ih hl]

end List
