import Mathlib.Data.List.Basic
import Mathlib.Data.List.FinRange
import Mathlib.Data.List.Infix
import Mathlib.Data.List.Nodup
import Mathlib.Data.Fintype.Basic
import Mathlib.Logic.Function.Basic

/-! # Path-compressed trees

A tree is canonical at a path when every leaf lies below its own path and every branch has at least two occupied slots.
It is then determined by its leaves (`Canonical.ext`). -/

namespace Radix
open List

inductive Trie (n : Nat) (β α : Type) where
  | nil
  | leaf (a : α)
  | branch (b : β) (children : Fin n → Trie n β α)

namespace Trie

variable {n : Nat} {α β γ δ : Type}

def isNil : Trie n β α → Bool
  | .nil => true
  | _ => false

@[simp] theorem isNil_nil : (nil : Trie n β α).isNil = true := rfl
@[simp] theorem isNil_leaf (a : α) : (leaf a : Trie n β α).isNil = false := rfl
@[simp] theorem isNil_branch (b : β) (ch : Fin n → Trie n β α) : (branch b ch).isNil = false := rfl

variable {t : Trie n β α} {ch : Fin n → Trie n β α}

theorem isNil_iff : t.isNil = true ↔ t = .nil := by
  cases t <;> simp

theorem isNil_eq_false : t.isNil = false ↔ t ≠ .nil := by
  cases t <;> simp

/-- The leaves from the first slot to the last. -/
def leaves : Trie n β α → List α
  | .nil => []
  | .leaf a => [a]
  | .branch _ ch => (finRange n).flatMap fun i => (ch i).leaves

@[simp] theorem leaves_nil : (nil : Trie n β α).leaves = [] := rfl
@[simp] theorem leaves_leaf (a : α) : (leaf a : Trie n β α).leaves = [a] := rfl

@[simp] theorem mem_leaves_branch {a : α} {b : β} : a ∈ (branch b ch).leaves ↔ ∃ i, a ∈ (ch i).leaves := by
  simp [leaves]

def occupied (ch : Fin n → Trie n β α) : List (Fin n) :=
  (finRange n).filter fun i => !(ch i).isNil

theorem mem_occupied {i : Fin n} : i ∈ occupied ch ↔ ch i ≠ .nil := by
  simp [occupied, isNil_eq_false]

theorem occupied_nodup (ch : Fin n → Trie n β α) : (occupied ch).Nodup := (nodup_finRange n).filter _

def map (f : β → γ) (g : α → δ) : Trie n β α → Trie n γ δ
  | .nil => .nil
  | .leaf a => .leaf (g a)
  | .branch b ch => .branch (f b) fun i => (ch i).map f g

@[simp] theorem map_nil (f : β → γ) (g : α → δ) : (nil : Trie n β α).map f g = .nil := rfl
@[simp] theorem map_leaf (f : β → γ) (g : α → δ) (a : α) : (leaf a : Trie n β α).map f g = .leaf (g a) := rfl
@[simp] theorem map_branch (f : β → γ) (g : α → δ) (b : β) (ch : Fin n → Trie n β α) :
    (branch b ch).map f g = .branch (f b) fun i => (ch i).map f g := rfl

@[simp] theorem isNil_map (f : β → γ) (g : α → δ) (t : Trie n β α) : (t.map f g).isNil = t.isNil := by
  cases t <;> rfl

theorem map_eq_nil {f : β → γ} {g : α → δ} : t.map f g = .nil ↔ t = .nil := by
  rw [← isNil_iff, isNil_map, isNil_iff]

theorem leaves_map (f : β → γ) (g : α → δ) (t : Trie n β α) : (t.map f g).leaves = t.leaves.map g := by
  induction t with
  | nil => rfl
  | leaf a => rfl
  | branch b ch ih => simp [leaves, map_flatMap, ih]

theorem occupied_map (f : β → γ) (g : α → δ) (ch : Fin n → Trie n β α) :
    occupied (fun i => (ch i).map f g) = occupied ch := by
  simp [occupied]

theorem map_update (f : β → γ) (g : α → δ) (ch : Fin n → Trie n β α) (i : Fin n) (t : Trie n β α) :
    (fun j => (Function.update ch i t j).map f g) = Function.update (fun j => (ch j).map f g) i (t.map f g) := by
  funext j
  by_cases h : j = i
  · subst h; simp
  · simp [Function.update_of_ne h]

end Trie

/-! ### Common prefixes -/

section Shared
variable {σ : Type} [DecidableEq σ]

/-- The longest common prefix of two lists. -/
def shared : List σ → List σ → List σ
  | x :: xs, y :: ys => if x = y then x :: shared xs ys else []
  | _, _ => []

@[simp] theorem shared_nil_left (ys : List σ) : shared [] ys = [] := by
  cases ys <;> rfl

@[simp] theorem shared_nil_right (xs : List σ) : shared xs [] = [] := by
  cases xs <;> rfl

theorem shared_cons_cons (x y : σ) (xs ys : List σ) :
    shared (x :: xs) (y :: ys) = if x = y then x :: shared xs ys else [] := rfl

theorem shared_prefix_left : ∀ xs ys : List σ, shared xs ys <+: xs
  | [], ys => by simp
  | x :: xs, [] => by simp
  | x :: xs, y :: ys => by
    rw [shared_cons_cons]
    split
    · exact (cons_prefix_cons.mpr ⟨rfl, shared_prefix_left xs ys⟩)
    · exact nil_prefix

theorem shared_prefix_right : ∀ xs ys : List σ, shared xs ys <+: ys
  | [], ys => by simp
  | x :: xs, [] => by simp
  | x :: xs, y :: ys => by
    rw [shared_cons_cons]
    split
    · rename_i h
      exact (cons_prefix_cons.mpr ⟨h, shared_prefix_right xs ys⟩)
    · exact nil_prefix

theorem shared_diverges : ∀ (xs ys : List σ) {x y : σ}, xs[(shared xs ys).length]? = some x →
    ys[(shared xs ys).length]? = some y → x ≠ y
  | [], ys, x, y, hx, _ => by simp at hx
  | a :: xs, [], x, y, _, hy => by simp at hy
  | a :: xs, b :: ys, x, y, hx, hy => by
    rw [shared_cons_cons] at hx hy
    by_cases h : a = b
    · simp only [h, if_true, length_cons, getElem?_cons_succ] at hx hy
      exact shared_diverges xs ys hx hy
    · simp only [h, if_false, length_nil, getElem?_cons_zero, Option.some.injEq] at hx hy
      rw [← hx, ← hy]
      exact h

theorem shared_append (p xs ys : List σ) : shared (p ++ xs) (p ++ ys) = p ++ shared xs ys := by
  induction p with
  | nil => rfl
  | cons x p ih => simp [shared_cons_cons, ih]

theorem shared_length_eq {xs ys : List σ} : (shared xs ys).length = xs.length ↔ xs <+: ys := by
  constructor
  · intro h
    have hl := (shared_prefix_left xs ys).eq_of_length h
    exact hl ▸ shared_prefix_right xs ys
  · rintro ⟨zs, rfl⟩
    induction xs with
    | nil => simp
    | cons x xs ih => simp [shared_cons_cons, ih]

end Shared

/-! ### Paths -/

section Paths
variable {σ : Type} {p q k : List σ} {i j : σ}

theorem append_singleton_prefix_iff : p ++ [i] <+: k ↔ p <+: k ∧ k[p.length]? = some i := by
  constructor
  · rintro ⟨r, rfl⟩
    exact ⟨⟨i :: r, by simp⟩, by simp⟩
  · rintro ⟨⟨r, rfl⟩, h⟩
    cases r with
    | nil => simp at h
    | cons x r =>
      simp only [getElem?_append_right (Nat.le_refl _), Nat.sub_self, getElem?_cons_zero,
        Option.some.injEq] at h
      exact ⟨r, by simp [h]⟩

theorem slot_unique (hi : p ++ [i] <+: k) (hj : p ++ [j] <+: k) : i = j := by
  have h1 := (append_singleton_prefix_iff.mp hi).2
  rw [(append_singleton_prefix_iff.mp hj).2] at h1
  exact (Option.some.inj h1).symm

theorem prefix_of_append (h : p ++ q <+: k) : p <+: k := (prefix_append p q).trans h

theorem append_prefix_iff (hp : p <+: k) : p ++ q <+: k ↔ q <+: k.drop p.length := by
  obtain ⟨r, rfl⟩ := hp
  rw [prefix_append_right_inj, drop_left]

/-- Neither path goes through the end of the other. -/
def Apart (k l : List σ) : Prop := ¬k <+: l ∧ ¬l <+: k

theorem not_prefix_of_length {k l : List σ} (h : l.length < k.length) : ¬k <+: l := fun hp => by
  have := hp.length_le
  omega

theorem apart_of_length {k l : List σ} (hl : k.length = l.length) (hne : k ≠ l) : Apart k l :=
  ⟨fun h => hne (h.eq_of_length hl), fun h => hne (h.eq_of_length hl.symm).symm⟩

theorem Apart.symm {k l : List σ} (h : Apart k l) : Apart l k := ⟨h.2, h.1⟩

theorem Apart.ne {k l : List σ} (h : Apart k l) : k ≠ l := fun e => h.1 (e ▸ prefix_rfl)

end Paths

/-! ### Placed trees -/

section Placed
variable {n : Nat} {α : Type} (path : α → List (Fin n))

/-- The leaves of the tree at path `p` lie below their paths, and every branch has an occupied slot. -/
def Placed (p : List (Fin n)) : Trie n (List (Fin n)) α → Prop
  | .nil => True
  | .leaf a => p <+: path a
  | .branch q ch => (∃ i, ch i ≠ .nil) ∧ ∀ i, Placed (p ++ q ++ [i]) (ch i)

/-- The path `k` is that of a leaf or apart from it, for every leaf. -/
def Free (k : List (Fin n)) (t : Trie n (List (Fin n)) α) : Prop :=
  ∀ a ∈ t.leaves, path a = k ∨ Apart (path a) k

variable {path}
variable {p k q : List (Fin n)} {t : Trie n (List (Fin n)) α} {ch : Fin n → Trie n (List (Fin n)) α} {a : α}

theorem Placed.mem (h : Placed path p t) (ha : a ∈ t.leaves) : p <+: path a := by
  induction t generalizing p with
  | nil => simp at ha
  | leaf b =>
    rw [Trie.leaves_leaf, mem_singleton] at ha
    exact ha ▸ h
  | branch q ch ih =>
    obtain ⟨i, hi⟩ := Trie.mem_leaves_branch.mp ha
    have hp := ih i (h.2 i) hi
    rw [append_assoc] at hp
    exact prefix_of_append hp

theorem Placed.child_mem (h : Placed path p (.branch q ch)) {i : Fin n} (ha : a ∈ (ch i).leaves) :
    p ++ q ++ [i] <+: path a := (h.2 i).mem ha

theorem Placed.exists_mem (h : Placed path p t) (ht : t ≠ .nil) : ∃ a, a ∈ t.leaves := by
  induction t generalizing p with
  | nil => exact absurd rfl ht
  | leaf a => exact ⟨a, by simp⟩
  | branch q ch ih =>
    obtain ⟨⟨i, hi⟩, hch⟩ := h
    obtain ⟨a, ha⟩ := ih i (hch i) hi
    exact ⟨a, Trie.mem_leaves_branch.mpr ⟨i, ha⟩⟩

theorem Placed.mem_child_iff (h : Placed path p (.branch q ch)) {i : Fin n} :
    a ∈ (ch i).leaves ↔ a ∈ (Trie.branch q ch).leaves ∧ p ++ q ++ [i] <+: path a := by
  constructor
  · intro ha
    exact ⟨Trie.mem_leaves_branch.mpr ⟨i, ha⟩, h.child_mem ha⟩
  · rintro ⟨ha, hp⟩
    obtain ⟨j, hj⟩ := Trie.mem_leaves_branch.mp ha
    rwa [slot_unique hp (h.child_mem hj)]

theorem Free.child (h : Free path k (.branch q ch)) (i : Fin n) : Free path k (ch i) := fun a ha =>
  h a (Trie.mem_leaves_branch.mpr ⟨i, ha⟩)

theorem Placed.branch_end (h : Placed path p (.branch q ch)) (hfree : Free path k (.branch q ch)) : ¬k <+: p ++ q := by
  intro hk
  obtain ⟨⟨i, hi⟩, hch⟩ := h
  obtain ⟨a, ha⟩ := (hch i).exists_mem hi
  have hpa := (hch i).mem ha
  obtain rfl | har := hfree.child i a ha
  · have := (hpa.trans hk).length_le
    simp only [length_append, length_singleton] at this
    omega
  · exact har.2 (hk.trans (prefix_of_append hpa))

theorem Placed.nodup (h : Placed path p t) : (t.leaves.map path).Nodup := by
  induction t generalizing p with
  | nil => simp
  | leaf a => simp
  | branch q ch ih =>
    simp only [Trie.leaves, map_flatMap, nodup_flatMap]
    refine ⟨fun i _ => ih i (h.2 i), (nodup_finRange n).imp fun {i j} hij => ?_⟩
    intro k hk hk'
    obtain ⟨a, ha, rfl⟩ := mem_map.mp hk
    obtain ⟨b, hb, hab⟩ := mem_map.mp hk'
    exact hij (slot_unique (h.child_mem ha) (hab ▸ h.child_mem hb))

end Placed

/-! ### Canonical trees -/

section Canonical
variable {n : Nat} {α : Type} (path : α → List (Fin n)) (L : Nat)

/-- The tree at path `p` is canonical: leaves have paths of length `L` and lie below them, and every
    branch has two occupied slots. -/
def Canonical (p : List (Fin n)) : Trie n (List (Fin n)) α → Prop
  | .nil => True
  | .leaf a => p <+: path a ∧ (path a).length = L
  | .branch q ch =>
    (∃ i j, i ≠ j ∧ ch i ≠ .nil ∧ ch j ≠ .nil) ∧ ∀ i, Canonical (p ++ q ++ [i]) (ch i)

variable {path L}
variable {p : List (Fin n)} {t u : Trie n (List (Fin n)) α} {a b : α}

theorem Canonical.placed (h : Canonical path L p t) : Placed path p t := by
  induction t generalizing p with
  | nil => trivial
  | leaf b => exact h.1
  | branch q ch ih =>
    obtain ⟨⟨i, -, -, hi, -⟩, hch⟩ := h
    exact ⟨⟨i, hi⟩, fun i => ih i (hch i)⟩

theorem Canonical.mem (h : Canonical path L p t) (ha : a ∈ t.leaves) : p <+: path a ∧ (path a).length = L := by
  induction t generalizing p with
  | nil => simp at ha
  | leaf b =>
    rw [Trie.leaves_leaf, mem_singleton] at ha
    exact ha ▸ h
  | branch q ch ih =>
    obtain ⟨i, hi⟩ := Trie.mem_leaves_branch.mp ha
    exact ⟨h.placed.mem ha, (ih i (h.2 i) hi).2⟩

theorem Canonical.free (h : Canonical path L p t) {k : List (Fin n)} (hk : k.length = L) : Free path k t := fun a ha => by
  by_cases heq : path a = k
  · exact .inl heq
  · exact .inr (apart_of_length ((h.mem ha).2.trans hk.symm) heq)

variable {q : List (Fin n)} {ch : Fin n → Trie n (List (Fin n)) α}

theorem Canonical.child_mem
    (h : Canonical path L p (.branch q ch)) {i : Fin n} (ha : a ∈ (ch i).leaves) : p ++ q ++ [i] <+: path a :=
  h.placed.child_mem ha

theorem Canonical.exists_mem (h : Canonical path L p t) (ht : t ≠ .nil) : ∃ a, a ∈ t.leaves := h.placed.exists_mem ht

theorem Canonical.mem_child_iff (h : Canonical path L p (.branch q ch)) {i : Fin n} :
    a ∈ (ch i).leaves ↔ a ∈ (Trie.branch q ch).leaves ∧ p ++ q ++ [i] <+: path a := h.placed.mem_child_iff

theorem Canonical.eq_of_path (h : Canonical path L p t) (ha : a ∈ t.leaves) (hb : b ∈ t.leaves)
    (hab : path a = path b) : a = b := by
  induction t generalizing p with
  | nil => simp at ha
  | leaf c =>
    rw [Trie.leaves_leaf, mem_singleton] at ha hb
    rw [ha, hb]
  | branch q ch ih =>
    obtain ⟨i, hi⟩ := Trie.mem_leaves_branch.mp ha
    have hb' := (h.mem_child_iff (i := i)).mpr ⟨hb, hab ▸ h.child_mem hi⟩
    exact ih i (h.2 i) hi hb'

theorem Canonical.two (h : Canonical path L p (.branch q ch)) :
    ∃ i j a b, i ≠ j ∧ a ∈ (ch i).leaves ∧ b ∈ (ch j).leaves := by
  obtain ⟨⟨i, j, hij, hi, hj⟩, hch⟩ := h
  obtain ⟨a, ha⟩ := (hch i).exists_mem hi
  obtain ⟨b, hb⟩ := (hch j).exists_mem hj
  exact ⟨i, j, a, b, hij, ha, hb⟩

theorem Canonical.length_le {r : List (Fin n)}
    (h : Canonical path L p (.branch q ch)) (hr : ∀ a ∈ (Trie.branch q ch).leaves, r <+: path a) :
    r.length ≤ (p ++ q).length := by
  obtain ⟨i, j, a, b, hij, ha, hb⟩ := h.two
  by_contra hlt
  rw [not_le] at hlt
  have slot : ∀ {c : α} {m : Fin n}, c ∈ (ch m).leaves → r[(p ++ q).length]? = some m := by
    intro c m hc
    obtain ⟨s, hs⟩ := hr c (Trie.mem_leaves_branch.mpr ⟨m, hc⟩)
    have hm := (append_singleton_prefix_iff.mp (h.child_mem hc)).2
    rwa [← hs, getElem?_append_left hlt] at hm
  have := slot ha
  rw [slot hb] at this
  exact hij (Option.some.inj this).symm

theorem Canonical.two_values {q : List (Fin n)} {ch : Fin n → Trie n (List (Fin n)) α}
    (h : Canonical path L p (.branch q ch)) (a : α) : ¬ ∀ x ∈ (Trie.branch q ch).leaves, x = a := by
  intro hall
  obtain ⟨i, j, x, y, hij, hx, hy⟩ := h.two
  have hxs := h.child_mem hx
  rw [hall x (Trie.mem_leaves_branch.mpr ⟨i, hx⟩), ← hall y (Trie.mem_leaves_branch.mpr ⟨j, hy⟩)] at hxs
  exact hij (slot_unique hxs (h.child_mem hy))

/-- A canonical tree is determined by its leaves. -/
theorem Canonical.ext (ht : Canonical path L p t) (hu : Canonical path L p u)
    (h : ∀ a, a ∈ t.leaves ↔ a ∈ u.leaves) : t = u := by
  induction t generalizing p u with
  | nil =>
    by_contra hne
    obtain ⟨a, ha⟩ := hu.exists_mem (Ne.symm hne)
    simpa using (h a).mpr ha
  | leaf a =>
    cases u with
    | nil => simpa using (h a).mp (by simp)
    | leaf b =>
      have := (h a).mp (by simp)
      rw [Trie.leaves_leaf, mem_singleton] at this
      rw [this]
    | branch q ch => exact absurd (fun x hx => by simpa using (h x).mpr hx) (hu.two_values a)
  | branch q ch ih =>
    cases u with
    | nil =>
      obtain ⟨i, -, a, -, -, ha, -⟩ := ht.two
      simpa using (h a).mp (Trie.mem_leaves_branch.mpr ⟨i, ha⟩)
    | leaf b => exact absurd (fun x hx => by simpa using (h x).mp hx) (ht.two_values b)
    | branch q' ch' =>
      -- Both compressed paths are the longest path above all leaves.
      have above : ∀ {r : List (Fin n)} {c : Fin n → Trie n (List (Fin n)) α},
          Canonical path L p (.branch r c) → ∀ a ∈ (Trie.branch r c).leaves, p ++ r <+: path a := by
        intro r c hc a ha
        obtain ⟨i, hi⟩ := Trie.mem_leaves_branch.mp ha
        exact prefix_of_append (hc.child_mem hi)
      have hle := ht.length_le (r := p ++ q') fun a ha => above hu a ((h a).mp ha)
      have hge := hu.length_le (r := p ++ q) fun a ha => above ht a ((h a).mpr ha)
      obtain ⟨i, -, a, -, -, ha, -⟩ := ht.two
      have ha' : a ∈ (Trie.branch q ch).leaves := Trie.mem_leaves_branch.mpr ⟨i, ha⟩
      have hpq : p ++ q = p ++ q' :=
        (prefix_of_prefix_length_le (above ht a ha') (above hu a ((h a).mp ha')) hge).eq_of_length_le hle
      have hq : q = q' := append_cancel_left hpq
      subst hq
      congr 1
      funext i
      refine ih i (ht.2 i) (hu.2 i) fun a => ?_
      rw [ht.mem_child_iff, hu.mem_child_iff, h a]

theorem Canonical.nodup (h : Canonical path L p t) : (t.leaves.map path).Nodup := h.placed.nodup

theorem Canonical.map {γ : Type} {path' : γ → List (Fin n)} {g : α → γ} (hg : ∀ a, path' (g a) = path a)
    (h : Canonical path L p t) : Canonical path' L p (t.map id g) := by
  induction t generalizing p with
  | nil => trivial
  | leaf a => exact ⟨by rw [hg]; exact h.1, by rw [hg]; exact h.2⟩
  | branch q ch ih =>
    obtain ⟨⟨i, j, hij, hi, hj⟩, hch⟩ := h
    exact ⟨⟨i, j, hij, mt Trie.map_eq_nil.mp hi, mt Trie.map_eq_nil.mp hj⟩, fun i => ih i (hch i)⟩

end Canonical

end Radix
