import Quilibrium.Lib.Radix

/-! # Lookup, insertion and removal in path-compressed trees

On canonical trees the three are the operations of a finite map keyed by paths. -/

namespace Radix
open Function List

variable {n : Nat} {α : Type} (path : α → List (Fin n))

/-- A branch with two occupied slots. -/
def fork (q : List (Fin n)) (i : Fin n) (t : Trie n (List (Fin n)) α) (j : Fin n)
    (u : Trie n (List (Fin n)) α) : Trie n (List (Fin n)) α :=
  .branch q (update (update (fun _ => .nil) i t) j u)

def lookup (k : List (Fin n)) : Trie n (List (Fin n)) α → Nat → Option α
  | .nil, _ => none
  | .leaf a, _ => if path a = k then some a else none
  | .branch q ch, d =>
    if q <+: k.drop d then
      match k[d + q.length]? with
      | some i => lookup k (ch i) (d + q.length + 1)
      | none => none
    else none

def insert (a : α) : Trie n (List (Fin n)) α → Nat → Trie n (List (Fin n)) α
  | .nil, _ => .leaf a
  | .leaf b, d =>
    if path b = path a then .leaf a
    else
      let s := shared ((path b).drop d) ((path a).drop d)
      match (path b)[d + s.length]?, (path a)[d + s.length]? with
      | some i, some j => fork s i (.leaf b) j (.leaf a)
      | _, _ => .leaf b
  | .branch q ch, d =>
    let s := shared q ((path a).drop d)
    match q[s.length]?, (path a)[d + s.length]? with
    | some i, some j => fork s i (.branch (q.drop (s.length + 1)) ch) j (.leaf a)
    | none, some i => .branch q (update ch i (insert a (ch i) (d + q.length + 1)))
    | _, none => .branch q ch

/-- A branch after a removal: nothing is left of an empty one, and one with a single occupied slot is
    replaced by its content. -/
def collapse (q : List (Fin n)) (ch : Fin n → Trie n (List (Fin n)) α) : Trie n (List (Fin n)) α :=
  match Trie.occupied ch with
  | [] => .nil
  | [i] =>
    match ch i with
    | .branch r c => .branch (q ++ i :: r) c
    | t => t
  | _ => .branch q ch

def remove (k : List (Fin n)) : Trie n (List (Fin n)) α → Nat → Trie n (List (Fin n)) α
  | .nil, _ => .nil
  | .leaf a, _ => if path a = k then .nil else .leaf a
  | .branch q ch, d =>
    if q <+: k.drop d then
      match k[d + q.length]? with
      | some i => collapse q (update ch i (remove k (ch i) (d + q.length + 1)))
      | none => .branch q ch
    else .branch q ch

/-! ### Forks -/

theorem fork_slots {γ : Type} {i j : Fin n} {x y d : γ} (P : Fin n → γ → Prop) (hi : P i x) (hj : P j y)
    (hd : ∀ m, m ≠ i → m ≠ j → P m d) (m : Fin n) : P m (update (update (fun _ => d) i x) j y m) := by
  by_cases hmj : m = j
  · subst hmj
    rw [update_self]
    exact hj
  · rw [update_of_ne hmj]
    by_cases hmi : m = i
    · subst hmi
      rw [update_self]
      exact hi
    · rw [update_of_ne hmi]
      exact hd m hmi hmj

theorem update_slots {γ : Type} {i : Fin n} {x : γ} {f : Fin n → γ} (P : Fin n → γ → Prop) (hi : P i x)
    (hf : ∀ m, m ≠ i → P m (f m)) (m : Fin n) : P m (update f i x m) := by
  by_cases hm : m = i
  · subst hm
    rw [update_self]
    exact hi
  · rw [update_of_ne hm]
    exact hf m hm

section
variable {γ δ : Type} (R : Fin n → γ → δ → Prop)
include R

theorem fork_slots₂ {i j : Fin n} {x y d : γ} {x' y' d' : δ} (hi : R i x x') (hj : R j y y')
    (hd : ∀ m, m ≠ i → m ≠ j → R m d d') (m : Fin n) : R m (update (update (fun _ => d) i x) j y m)
      (update (update (fun _ => d') i x') j y' m) := by
  have := fork_slots (fun m (z : γ × δ) => R m z.1 z.2) (x := (x, x')) (y := (y, y')) (d := (d, d')) hi hj hd m
  simp only [update_apply] at this ⊢
  split_ifs at this ⊢ <;> exact this

theorem update_slots₂ {i : Fin n} {x : γ} {x' : δ} {f : Fin n → γ} {f' : Fin n → δ} (hi : R i x x') (hf : ∀ m, m ≠ i → R m (f m) (f' m)) (m : Fin n) :
    R m (update f i x m) (update f' i x' m) := by
  have := update_slots (fun m (z : γ × δ) => R m z.1 z.2) (x := (x, x')) (f := fun m => (f m, f' m)) hi hf m
  simp only [update_apply] at this ⊢
  split_ifs at this ⊢ <;> exact this

end

section Fork
variable {path} {L : Nat} {p q : List (Fin n)} {i j : Fin n} {t u : Trie n (List (Fin n)) α} {a : α}

theorem mem_fork (hij : i ≠ j) : a ∈ (fork q i t j u).leaves ↔ a ∈ t.leaves ∨ a ∈ u.leaves := by
  rw [fork, Trie.mem_leaves_branch]
  constructor
  · rintro ⟨m, hm⟩
    by_cases hmj : m = j
    · subst hmj
      rw [update_self] at hm
      exact Or.inr hm
    · rw [update_of_ne hmj] at hm
      by_cases hmi : m = i
      · subst hmi
        rw [update_self] at hm
        exact Or.inl hm
      · rw [update_of_ne hmi] at hm
        simp at hm
  · rintro (h | h)
    · exact ⟨i, by rw [update_of_ne hij, update_self]; exact h⟩
    · exact ⟨j, by rw [update_self]; exact h⟩

theorem fork_canonical (hij : i ≠ j) (ht : t ≠ .nil) (hu : u ≠ .nil) (hti : Canonical path L (p ++ q ++ [i]) t)
    (huj : Canonical path L (p ++ q ++ [j]) u) : Canonical path L p (fork q i t j u) := by
  refine ⟨⟨i, j, hij, ?_, ?_⟩, fun m => ?_⟩
  · rw [update_of_ne hij, update_self]
    exact ht
  · rw [update_self]
    exact hu
  · refine fork_slots (fun m t => Canonical path L (p ++ q ++ [m]) t) hti huj (fun _ _ _ => ?_) m
    trivial

theorem fork_placed (hu : u ≠ .nil) (hti : Placed path (p ++ q ++ [i]) t) (huj : Placed path (p ++ q ++ [j]) u) :
    Placed path p (fork q i t j u) := by
  refine ⟨⟨j, ?_⟩, fun m => ?_⟩
  · rw [update_self]
    exact hu
  · refine fork_slots (fun m t => Placed path (p ++ q ++ [m]) t) hti huj (fun _ _ _ => ?_) m
    trivial

end Fork

/-! ### Where two paths part -/

section Part
variable {p k l q : List (Fin n)}

theorem paths_part (hk : p <+: k) (hl : p <+: l) (har : Apart k l) :
    ∃ i j, i ≠ j ∧ k[p.length + (shared (k.drop p.length) (l.drop p.length)).length]? = some i ∧
      l[p.length + (shared (k.drop p.length) (l.drop p.length)).length]? = some j ∧
      p ++ shared (k.drop p.length) (l.drop p.length) ++ [i] <+: k ∧
      p ++ shared (k.drop p.length) (l.drop p.length) ++ [j] <+: l := by
  obtain ⟨xs, rfl⟩ := hk
  obtain ⟨ys, rfl⟩ := hl
  simp only [drop_left]
  have hlt : (shared xs ys).length < xs.length := by
    refine lt_of_le_of_ne (shared_prefix_left xs ys).length_le fun h => har.1 ?_
    exact (prefix_append_right_inj p).mpr (shared_length_eq.mp h)
  have hlt' : (shared xs ys).length < ys.length := by
    refine lt_of_le_of_ne (shared_prefix_right xs ys).length_le fun h => har.2 ?_
    refine (prefix_append_right_inj p).mpr ?_
    rw [← (shared_prefix_right xs ys).eq_of_length h]
    exact shared_prefix_left xs ys
  have hx := getElem?_eq_getElem hlt
  have hy := getElem?_eq_getElem hlt'
  have part : ∀ {zs : List (Fin n)} {m : Fin n}, shared xs ys <+: zs → zs[(shared xs ys).length]? = some m →
      p ++ shared xs ys ++ [m] <+: p ++ zs := by
    intro zs m hs hm
    rw [append_assoc, prefix_append_right_inj]
    exact append_singleton_prefix_iff.mpr ⟨hs, hm⟩
  refine ⟨_, _, shared_diverges xs ys hx hy, ?_, ?_, part (shared_prefix_left xs ys) hx,
    part (shared_prefix_right xs ys) hy⟩
  · rw [getElem?_append_right (Nat.le_add_right _ _), Nat.add_sub_cancel_left, hx]
  · rw [getElem?_append_right (Nat.le_add_right _ _), Nat.add_sub_cancel_left, hy]

theorem path_leaves (hk : p <+: k) (hq : ¬q <+: k.drop p.length) (hend : ¬k <+: p ++ q) :
    ∃ i j, i ≠ j ∧ q[(shared q (k.drop p.length)).length]? = some i ∧
      k[p.length + (shared q (k.drop p.length)).length]? = some j ∧
      q = shared q (k.drop p.length) ++ i :: q.drop ((shared q (k.drop p.length)).length + 1) ∧
      p ++ shared q (k.drop p.length) ++ [j] <+: k := by
  obtain ⟨ys, rfl⟩ := hk
  simp only [drop_left] at hq ⊢
  have hlt : (shared q ys).length < q.length :=
    lt_of_le_of_ne (shared_prefix_left q ys).length_le fun h => hq (shared_length_eq.mp h)
  have hlt' : (shared q ys).length < ys.length := by
    refine lt_of_le_of_ne (shared_prefix_right q ys).length_le fun h => hend ?_
    refine (prefix_append_right_inj p).mpr ?_
    rw [← (shared_prefix_right q ys).eq_of_length h]
    exact shared_prefix_left q ys
  have hx := getElem?_eq_getElem hlt
  have hy := getElem?_eq_getElem hlt'
  refine ⟨_, _, shared_diverges q ys hx hy, hx, ?_, ?_, ?_⟩
  · rw [getElem?_append_right (Nat.le_add_right _ _), Nat.add_sub_cancel_left, hy]
  · conv_lhs => rw [← take_append_drop (shared q ys).length q]
    rw [← prefix_iff_eq_take.mp (shared_prefix_left q ys), drop_eq_getElem_cons hlt]
  · rw [append_assoc, prefix_append_right_inj]
    exact append_singleton_prefix_iff.mpr ⟨shared_prefix_right q ys, hy⟩

theorem path_continues (hk : p <+: k) (hq : q <+: k.drop p.length) (hend : ¬k <+: p ++ q) :
    ∃ i, k[p.length + q.length]? = some i ∧ p ++ q ++ [i] <+: k := by
  have hpq : p ++ q <+: k := (append_prefix_iff hk).mpr hq
  have hl : (p ++ q).length < k.length :=
    lt_of_le_of_ne hpq.length_le fun h => hend (hpq.eq_of_length h ▸ prefix_rfl)
  refine ⟨k[(p ++ q).length], ?_, append_singleton_prefix_iff.mpr ⟨hpq, getElem?_eq_getElem hl⟩⟩
  rw [← length_append]
  exact getElem?_eq_getElem hl

theorem length_slot (p q : List (Fin n)) (i : Fin n) : (p ++ q ++ [i]).length = p.length + q.length + 1 := by
  simp [Nat.add_assoc]

theorem drop_slot {i : Fin n} (h : p ++ q ++ [i] <+: k) :
    (k.drop p.length).drop q.length = i :: k.drop (p ++ q ++ [i]).length := by
  obtain ⟨r, rfl⟩ := h
  simp

end Part

section Laws
variable {path} {L : Nat} {p k : List (Fin n)} {t : Trie n (List (Fin n)) α} {a x : α}

variable {q : List (Fin n)} {ch : Fin n → Trie n (List (Fin n)) α}

theorem Canonical.branch_length (h : Canonical path L p (.branch q ch)) : (p ++ q).length < L := by
  obtain ⟨i, -, a, -, -, ha, -⟩ := h.two
  obtain ⟨hp, hl⟩ := (h.2 i).mem ha
  have := hp.length_le
  rw [hl, length_append, length_singleton] at this
  omega

/-! ### Insertion -/

theorem insert_leaf_eq (b : α) (d : Nat) (h : path b = path a) : insert path a (.leaf b) d = .leaf a := by
  simp [insert, h]

theorem insert_leaf_fork {b : α} (ha : p <+: path a) (hb : p <+: path b) (har : Apart (path b) (path a)) :
    ∃ i j, i ≠ j ∧ insert path a (.leaf b) p.length =
        fork (shared ((path b).drop p.length) ((path a).drop p.length)) i (.leaf b) j (.leaf a) ∧
      (path b)[p.length + (shared ((path b).drop p.length) ((path a).drop p.length)).length]? = some i ∧
      (path a)[p.length + (shared ((path b).drop p.length) ((path a).drop p.length)).length]? = some j ∧
      p ++ shared ((path b).drop p.length) ((path a).drop p.length) ++ [i] <+: path b ∧
      p ++ shared ((path b).drop p.length) ((path a).drop p.length) ++ [j] <+: path a := by
  obtain ⟨i, j, hij, hi, hj, hpi, hpj⟩ := paths_part hb ha har
  exact ⟨i, j, hij, by simp [insert, har.ne, hi, hj], hi, hj, hpi, hpj⟩

theorem insert_branch_fork (ch : Fin n → Trie n (List (Fin n)) α) (ha : p <+: path a)
    (hend : ¬path a <+: p ++ q) (hq : ¬q <+: (path a).drop p.length) : ∃ i j, i ≠ j ∧
      insert path a (.branch q ch) p.length = fork (shared q ((path a).drop p.length)) i
          (.branch (q.drop ((shared q ((path a).drop p.length)).length + 1)) ch) j (.leaf a) ∧
      q[(shared q ((path a).drop p.length)).length]? = some i ∧
      (path a)[p.length + (shared q ((path a).drop p.length)).length]? = some j ∧
      q = shared q ((path a).drop p.length) ++ i :: q.drop ((shared q ((path a).drop p.length)).length + 1) ∧
      p ++ shared q ((path a).drop p.length) ++ [j] <+: path a := by
  obtain ⟨i, j, hij, hi, hj, hqi, hpj⟩ := path_leaves ha hq hend
  exact ⟨i, j, hij, by simp [insert, hi, hj], hi, hj, hqi, hpj⟩

theorem insert_branch_descend (ch : Fin n → Trie n (List (Fin n)) α) (ha : p <+: path a)
    (hend : ¬path a <+: p ++ q) (hq : q <+: (path a).drop p.length) : ∃ i, insert path a (.branch q ch) p.length =
        .branch q (update ch i (insert path a (ch i) (p ++ q ++ [i]).length)) ∧
      (path a)[p.length + q.length]? = some i ∧ p ++ q ++ [i] <+: path a := by
  obtain ⟨i, hi, hpi⟩ := path_continues ha hq hend
  refine ⟨i, ?_, hi, hpi⟩
  have hs : (shared q ((path a).drop p.length)).length = q.length := shared_length_eq.mpr hq
  simp only [insert, hs, getElem?_length, hi, length_slot]

theorem insert_ne_nil (t : Trie n (List (Fin n)) α) (d : Nat) : insert path a t d ≠ .nil := by
  cases t with
  | nil => simp [insert]
  | leaf b =>
    simp only [insert]
    split
    · simp
    · split <;> simp [fork]
  | branch q ch =>
    simp only [insert]
    split <;> simp [fork]

theorem insert_canonical (h : Canonical path L p t) (ha : p <+: path a) (hl : (path a).length = L) :
    Canonical path L p (insert path a t p.length) := by
  induction t generalizing p with
  | nil => exact ⟨ha, hl⟩
  | leaf b =>
    by_cases hba : path b = path a
    · rw [insert_leaf_eq b _ hba]
      exact ⟨ha, hl⟩
    · obtain ⟨i, j, hij, e, -, -, hi, hj⟩ := insert_leaf_fork ha h.1 (apart_of_length (h.2.trans hl.symm) hba)
      rw [e]
      exact fork_canonical hij (by simp) (by simp) ⟨hi, h.2⟩ ⟨hj, hl⟩
  | branch q ch ih =>
    have hend := h.placed.branch_end (h.free hl)
    by_cases hq : q <+: (path a).drop p.length
    · obtain ⟨i, e, -, hi⟩ := insert_branch_descend ch ha hend hq
      obtain ⟨⟨x, y, hxy, hx, hy⟩, hch⟩ := h
      rw [e]
      have keep : ∀ m, ch m ≠ .nil → update ch i (insert path a (ch i) (p ++ q ++ [i]).length) m ≠ .nil := by
        intro m hm
        by_cases hmi : m = i
        · subst hmi
          rw [update_self]
          exact insert_ne_nil _ _
        · rwa [update_of_ne hmi]
      refine ⟨⟨x, y, hxy, keep x hx, keep y hy⟩, fun m => ?_⟩
      by_cases hmi : m = i
      · subst hmi
        rw [update_self]
        exact ih m (hch m) hi
      · rw [update_of_ne hmi]
        exact hch m
    · obtain ⟨i, j, hij, e, -, -, hqi, hj⟩ := insert_branch_fork ch ha hend hq
      rw [e]
      refine fork_canonical hij (by simp) (by simp) ?_ ⟨hj, hl⟩
      refine ⟨h.1, fun m => ?_⟩
      have := h.2 m
      rw [hqi] at this
      simpa using this

theorem placed_insert (h : Placed path p t) (ha : p <+: path a) (hfree : Free path (path a) t) :
    Placed path p (insert path a t p.length) := by
  induction t generalizing p with
  | nil => exact ha
  | leaf b =>
    by_cases hba : path b = path a
    · rw [insert_leaf_eq b _ hba]
      exact ha
    · obtain ⟨i, j, hij, e, -, -, hi, hj⟩ := insert_leaf_fork ha h ((hfree b (by simp)).resolve_left hba)
      rw [e]
      exact fork_placed (by simp) hi hj
  | branch q ch ih =>
    have hend := h.branch_end hfree
    by_cases hq : q <+: (path a).drop p.length
    · obtain ⟨i, e, -, hi⟩ := insert_branch_descend ch ha hend hq
      rw [e]
      refine ⟨⟨i, by rw [update_self]; exact insert_ne_nil _ _⟩, fun m => ?_⟩
      exact update_slots (fun m t => Placed path (p ++ q ++ [m]) t) (ih i (h.2 i) hi (hfree.child i))
        (fun m _ => h.2 m) m
    · obtain ⟨i, j, hij, e, -, -, hqi, hj⟩ := insert_branch_fork ch ha hend hq
      rw [e]
      refine fork_placed (by simp) ⟨h.1, fun m => ?_⟩ hj
      have := h.2 m
      rw [hqi] at this
      simpa using this

theorem Placed.mem_insert (h : Placed path p t) (ha : p <+: path a) (hfree : Free path (path a) t) :
    x ∈ (insert path a t p.length).leaves ↔ x = a ∨ x ∈ t.leaves ∧ path x ≠ path a := by
  induction t generalizing p with
  | nil => simp [insert]
  | leaf b =>
    by_cases hba : path b = path a
    · rw [insert_leaf_eq b _ hba]
      simp only [Trie.leaves_leaf, mem_singleton]
      constructor
      · exact Or.inl
      · rintro (hx | ⟨rfl, hne⟩)
        · exact hx
        · exact absurd hba hne
    · obtain ⟨i, j, hij, e, -⟩ := insert_leaf_fork ha h ((hfree b (by simp)).resolve_left hba)
      rw [e, mem_fork hij]
      simp only [Trie.leaves_leaf, mem_singleton]
      constructor
      · rintro (rfl | rfl)
        · exact Or.inr ⟨rfl, hba⟩
        · exact Or.inl rfl
      · rintro (rfl | ⟨rfl, -⟩)
        · exact Or.inr rfl
        · exact Or.inl rfl
  | branch q ch ih =>
    have hend := h.branch_end hfree
    by_cases hq : q <+: (path a).drop p.length
    · obtain ⟨i, e, -, hi⟩ := insert_branch_descend ch ha hend hq
      rw [e, Trie.mem_leaves_branch, Trie.mem_leaves_branch]
      constructor
      · rintro ⟨m, hm⟩
        by_cases hmi : m = i
        · subst hmi
          rw [update_self, ih m (h.2 m) hi (hfree.child m)] at hm
          exact hm.imp_right fun ⟨hx, hne⟩ => ⟨⟨m, hx⟩, hne⟩
        · rw [update_of_ne hmi] at hm
          refine Or.inr ⟨⟨m, hm⟩, fun hxa => hmi ?_⟩
          exact slot_unique (hxa ▸ h.child_mem hm) hi
      · rintro (hxa | ⟨⟨m, hm⟩, hne⟩)
        · exact ⟨i, by rw [update_self, ih i (h.2 i) hi (hfree.child i)]; exact Or.inl hxa⟩
        · refine ⟨m, ?_⟩
          by_cases hmi : m = i
          · subst hmi
            rw [update_self, ih m (h.2 m) hi (hfree.child m)]
            exact Or.inr ⟨hm, hne⟩
          · rwa [update_of_ne hmi]
    · obtain ⟨i, j, hij, e, -⟩ := insert_branch_fork ch ha hend hq
      rw [e, mem_fork hij, Trie.leaves_leaf, mem_singleton, Trie.mem_leaves_branch, Trie.mem_leaves_branch]
      constructor
      · rintro (⟨m, hm⟩ | rfl)
        · refine Or.inr ⟨⟨m, hm⟩, fun hxa => hq ?_⟩
          have := prefix_of_append (h.child_mem hm)
          rw [hxa] at this
          exact (append_prefix_iff ha).mp this
        · exact Or.inl rfl
      · rintro (rfl | ⟨hx, -⟩)
        · exact Or.inr rfl
        · exact Or.inl hx

theorem mem_insert (h : Canonical path L p t) (ha : p <+: path a) (hl : (path a).length = L) :
    x ∈ (insert path a t p.length).leaves ↔ x = a ∨ x ∈ t.leaves ∧ path x ≠ path a :=
  h.placed.mem_insert ha (h.free hl)

/-! ### Lookup -/

theorem Placed.lookup_eq_some (h : Placed path p t) (hk : p <+: k) (hfree : Free path k t) :
    lookup path k t p.length = some a ↔ a ∈ t.leaves ∧ path a = k := by
  induction t generalizing p with
  | nil => simp [lookup]
  | leaf b =>
    simp only [lookup, Trie.leaves_leaf, mem_singleton]
    split
    · rename_i hb
      rw [Option.some.injEq]
      exact ⟨fun e => ⟨e.symm, e ▸ hb⟩, fun e => e.1.symm⟩
    · rename_i hb
      simp only [reduceCtorEq, false_iff, not_and]
      rintro rfl
      exact hb
  | branch q ch ih =>
    have hend := h.branch_end hfree
    by_cases hq : q <+: k.drop p.length
    · obtain ⟨i, hi, hpi⟩ := path_continues hk hq hend
      simp only [lookup, if_pos hq, hi]
      rw [← length_slot, ih i (h.2 i) hpi (hfree.child i), h.mem_child_iff]
      constructor
      · rintro ⟨⟨ha, -⟩, e⟩
        exact ⟨ha, e⟩
      · rintro ⟨ha, e⟩
        exact ⟨⟨ha, e ▸ hpi⟩, e⟩
    · simp only [lookup, if_neg hq, reduceCtorEq, false_iff, not_and]
      intro ha e
      obtain ⟨i, hi⟩ := Trie.mem_leaves_branch.mp ha
      exact hq ((append_prefix_iff hk).mp (e ▸ prefix_of_append (h.child_mem hi)))

theorem lookup_eq_some (h : Canonical path L p t) (hk : p <+: k) (hl : k.length = L) :
    lookup path k t p.length = some a ↔ a ∈ t.leaves ∧ path a = k := h.placed.lookup_eq_some hk (h.free hl)

/-! ### Removal -/

section Collapse
variable {q : List (Fin n)} {ch : Fin n → Trie n (List (Fin n)) α} {i j : Fin n} {l : List (Fin n)}

theorem collapse_none (h : Trie.occupied ch = []) : collapse q ch = .nil := by
  simp [collapse, h]

theorem collapse_leaf {a : α} (h : Trie.occupied ch = [i]) (hi : ch i = .leaf a) : collapse q ch = .leaf a := by
  simp [collapse, h, hi]

theorem collapse_branch {r : List (Fin n)} {c : Fin n → Trie n (List (Fin n)) α} (h : Trie.occupied ch = [i])
    (hi : ch i = .branch r c) : collapse q ch = .branch (q ++ i :: r) c := by
  simp [collapse, h, hi]

theorem collapse_many (h : Trie.occupied ch = i :: j :: l) : collapse q ch = .branch q ch := by
  simp [collapse, h]

end Collapse

/-- What collapsing does, by the number of occupied slots. -/
theorem collapse_cases (q : List (Fin n)) (ch : Fin n → Trie n (List (Fin n)) α) :
    ((∀ i, ch i = .nil) ∧ collapse q ch = .nil) ∨ (∃ i, ch i ≠ .nil ∧ (∀ j, j ≠ i → ch j = .nil) ∧
      ((∃ r c, ch i = .branch r c ∧ collapse q ch = .branch (q ++ i :: r) c) ∨
        (∃ a, ch i = .leaf a ∧ collapse q ch = .leaf a))) ∨
    ((∃ i j, i ≠ j ∧ ch i ≠ .nil ∧ ch j ≠ .nil) ∧ collapse q ch = .branch q ch) := by
  rcases ho : Trie.occupied ch with _ | ⟨i, _ | ⟨j, l⟩⟩
  · refine Or.inl ⟨fun i => ?_, by simp [collapse, ho]⟩
    by_contra hi
    have := Trie.mem_occupied.mpr hi
    simp [ho] at this
  · have hi : ch i ≠ .nil := Trie.mem_occupied.mp (by simp [ho])
    refine Or.inr (Or.inl ⟨i, hi, fun j hj => ?_, ?_⟩)
    · by_contra hne
      have := Trie.mem_occupied.mpr hne
      rw [ho, mem_singleton] at this
      exact hj this
    · cases hc : ch i with
      | nil => exact absurd hc hi
      | leaf a => exact Or.inr ⟨a, rfl, by simp [collapse, ho, hc]⟩
      | branch r c => exact Or.inl ⟨r, c, rfl, by simp [collapse, ho, hc]⟩
  · refine Or.inr (Or.inr ⟨⟨i, j, ?_, ?_, ?_⟩, by simp [collapse, ho]⟩)
    · have := Trie.occupied_nodup ch
      rw [ho, nodup_cons] at this
      rintro rfl
      exact this.1 (by simp)
    · exact Trie.mem_occupied.mp (by simp [ho])
    · exact Trie.mem_occupied.mp (by simp [ho])

theorem collapse_canonical (h : ∀ i, Canonical path L (p ++ q ++ [i]) (ch i)) : Canonical path L p (collapse q ch) := by
  rcases collapse_cases q ch with ⟨-, e⟩ | ⟨i, -, -, ⟨r, c, hi, e⟩ | ⟨a, hi, e⟩⟩ | ⟨ht, e⟩
  · rw [e]
    trivial
  · have := h i
    rw [hi] at this
    rw [e]
    refine ⟨this.1, fun m => ?_⟩
    simpa using this.2 m
  · have := h i
    rw [hi] at this
    rw [e]
    refine ⟨?_, this.2⟩
    rw [Canonical, append_assoc] at this
    exact prefix_of_append this.1
  · rw [e]
    exact ⟨ht, h⟩

theorem mem_collapse : x ∈ (collapse q ch).leaves ↔ ∃ i, x ∈ (ch i).leaves := by
  rcases collapse_cases q ch with ⟨hnil, e⟩ | ⟨i, -, hnil, ⟨r, c, hi, e⟩ | ⟨a, hi, e⟩⟩ | ⟨-, e⟩
  · rw [e]
    simp [hnil]
  · rw [e, Trie.mem_leaves_branch]
    constructor
    · intro hx
      exact ⟨i, by rw [hi]; exact Trie.mem_leaves_branch.mpr hx⟩
    · rintro ⟨j, hj⟩
      by_cases hji : j = i
      · subst hji
        rw [hi] at hj
        exact Trie.mem_leaves_branch.mp hj
      · simp [hnil j hji] at hj
  · rw [e]
    constructor
    · intro hx
      exact ⟨i, by rw [hi]; exact hx⟩
    · rintro ⟨j, hj⟩
      by_cases hji : j = i
      · subst hji
        rwa [hi] at hj
      · simp [hnil j hji] at hj
  · rw [e, Trie.mem_leaves_branch]

theorem remove_branch_descend (path : α → List (Fin n)) (ch : Fin n → Trie n (List (Fin n)) α) (hk : p <+: k)
    (hend : ¬k <+: p ++ q) (hq : q <+: k.drop p.length) : ∃ i, remove path k (.branch q ch) p.length =
        collapse q (update ch i (remove path k (ch i) (p ++ q ++ [i]).length)) ∧
      k[p.length + q.length]? = some i ∧ p ++ q ++ [i] <+: k := by
  obtain ⟨i, hi, hpi⟩ := path_continues hk hq hend
  exact ⟨i, by simp only [remove, if_pos hq, hi, length_slot], hi, hpi⟩

theorem remove_canonical (h : Canonical path L p t) (hk : p <+: k) (hl : k.length = L) :
    Canonical path L p (remove path k t p.length) := by
  induction t generalizing p with
  | nil => trivial
  | leaf a =>
    simp only [remove]
    split
    · trivial
    · exact h
  | branch q ch ih =>
    by_cases hq : q <+: k.drop p.length
    · obtain ⟨i, e, -, hi⟩ := remove_branch_descend path ch hk (h.placed.branch_end (h.free hl)) hq
      rw [e]
      refine collapse_canonical fun m => ?_
      by_cases hmi : m = i
      · subst hmi
        rw [update_self]
        exact ih m (h.2 m) hi
      · rw [update_of_ne hmi]
        exact h.2 m
    · simp only [remove, if_neg hq]
      exact h

theorem mem_remove (h : Canonical path L p t) (hk : p <+: k) (hl : k.length = L) :
    x ∈ (remove path k t p.length).leaves ↔ x ∈ t.leaves ∧ path x ≠ k := by
  induction t generalizing p with
  | nil => simp [remove]
  | leaf a =>
    simp only [remove]
    split
    · rename_i ha
      simp only [Trie.leaves_nil, not_mem_nil, Trie.leaves_leaf, mem_singleton, false_iff, not_and, not_not]
      rintro rfl
      exact ha
    · rename_i ha
      simp only [Trie.leaves_leaf, mem_singleton, iff_self_and]
      rintro rfl
      exact ha
  | branch q ch ih =>
    by_cases hq : q <+: k.drop p.length
    · obtain ⟨i, e, -, hi⟩ := remove_branch_descend path ch hk (h.placed.branch_end (h.free hl)) hq
      rw [e, mem_collapse, Trie.mem_leaves_branch]
      constructor
      · rintro ⟨m, hm⟩
        by_cases hmi : m = i
        · subst hmi
          rw [update_self, ih m (h.2 m) hi] at hm
          exact ⟨⟨m, hm.1⟩, hm.2⟩
        · rw [update_of_ne hmi] at hm
          refine ⟨⟨m, hm⟩, fun hxk => hmi ?_⟩
          exact slot_unique (hxk ▸ h.child_mem hm) hi
      · rintro ⟨⟨m, hm⟩, hne⟩
        refine ⟨m, ?_⟩
        by_cases hmi : m = i
        · subst hmi
          rw [update_self, ih m (h.2 m) hi]
          exact ⟨hm, hne⟩
        · rwa [update_of_ne hmi]
    · simp only [remove, if_neg hq, iff_self_and, Trie.mem_leaves_branch]
      rintro ⟨m, hm⟩ rfl
      exact hq ((append_prefix_iff hk).mp (prefix_of_append (h.child_mem hm)))

end Laws

end Radix
