import Mathlib.Data.List.Lex
import Mathlib.Data.List.Sort
import Mathlib.Order.Lattice

/-! # Ordered maps

A finite map whose keys are kept in order, with the range scans of an ordered key-value store. -/

/-- A finite map from `κ` to `ν` as the list of its entries in the order of their keys. -/
structure OrdMap (κ ν : Type) [LinearOrder κ] where
  entries : List (κ × ν)
  sorted : entries.Pairwise fun a b => a.1 < b.1

namespace OrdMap
open List

variable {κ ν : Type} [LinearOrder κ]

def empty : OrdMap κ ν := ⟨[], .nil⟩

def get (m : OrdMap κ ν) (k : κ) : Option ν := (m.entries.find? fun e => e.1 = k).map Prod.snd

/-- Puts an entry into its place, replacing one with the same key. -/
def insertEntry (k : κ) (v : ν) : List (κ × ν) → List (κ × ν)
  | [] => [(k, v)]
  | e :: es => if k < e.1 then (k, v) :: e :: es else if e.1 < k then e :: insertEntry k v es else (k, v) :: es

theorem mem_insertEntry {k : κ} {v : ν} {e : κ × ν} {es : List (κ × ν)} (h : e ∈ insertEntry k v es) :
    e = (k, v) ∨ e ∈ es := by
  induction es with
  | nil => exact .inl (mem_singleton.mp h)
  | cons a es ih =>
    rw [insertEntry] at h
    split_ifs at h
    · exact (mem_cons.mp h)
    · rcases mem_cons.mp h with rfl | h
      · exact .inr mem_cons_self
      · exact (ih h).imp_right (mem_cons_of_mem a)
    · exact (mem_cons.mp h).imp_right (mem_cons_of_mem a)

theorem insertEntry_sorted (k : κ) (v : ν) {es : List (κ × ν)} (h : es.Pairwise fun a b => a.1 < b.1) :
    (insertEntry k v es).Pairwise fun a b => a.1 < b.1 := by
  induction es with
  | nil => exact pairwise_singleton _ _
  | cons a es ih =>
    obtain ⟨ha, hes⟩ := pairwise_cons.mp h
    rw [insertEntry]
    split_ifs with hk hk'
    · refine h.cons fun e he => ?_
      rcases mem_cons.mp he with rfl | he
      · exact hk
      · exact hk.trans (ha e he)
    · refine (ih hes).cons fun e he => ?_
      rcases mem_insertEntry he with rfl | he
      · exact hk'
      · exact ha e he
    · obtain rfl : a.1 = k := le_antisymm (not_lt.mp hk) (not_lt.mp hk')
      exact hes.cons ha

def set (m : OrdMap κ ν) (k : κ) (v : ν) : OrdMap κ ν := ⟨insertEntry k v m.entries, insertEntry_sorted k v m.sorted⟩

def delete (m : OrdMap κ ν) (k : κ) : OrdMap κ ν := ⟨m.entries.filter fun e => e.1 ≠ k, m.sorted.filter _⟩

def modify (m : OrdMap κ ν) (k : κ) (f : ν → ν) : OrdMap κ ν := (m.get k).elim m fun v => m.set k (f v)

def mapValues (m : OrdMap κ ν) (f : ν → ν) : OrdMap κ ν :=
  ⟨m.entries.map fun e => (e.1, f e.2), pairwise_map.mpr m.sorted⟩

/-- The first entry at or after `k` of an iterator over the keys from `lower` up to `upper`. -/
def seekGE (m : OrdMap κ ν) (lower upper k : κ) : Option (κ × ν) :=
  m.entries.find? fun e => lower ≤ e.1 ∧ e.1 < upper ∧ k ≤ e.1

def range (m : OrdMap κ ν) (lower upper : κ) : List (κ × ν) := m.entries.filter fun e => lower ≤ e.1 ∧ e.1 < upper

/-! ### What a map holds -/

variable {m : OrdMap κ ν} {k k' : κ} {v v' : ν}

theorem find_sorted {es : List (κ × ν)} (h : es.Pairwise fun a b => a.1 < b.1) :
    (es.find? fun e => e.1 = k) = some (k', v) ↔ (k', v) ∈ es ∧ k' = k := by
  induction es with
  | nil => simp
  | cons a es ih =>
    obtain ⟨ha, hes⟩ := pairwise_cons.mp h
    by_cases hk : a.1 = k
    · rw [find?_cons_of_pos (by simpa using hk)]
      constructor
      · rintro ⟨⟩
        exact ⟨mem_cons_self, hk⟩
      · rintro ⟨hm, rfl⟩
        rcases mem_cons.mp hm with rfl | hm
        · rfl
        · exact absurd hk (ha _ hm).ne
    · rw [find?_cons_of_neg (by simpa using hk), ih hes]
      refine and_congr_left fun hk' => ?_
      constructor
      · exact mem_cons_of_mem a
      · intro hm
        rcases mem_cons.mp hm with rfl | hm
        · exact absurd hk' hk
        · exact hm

theorem get_eq_some : m.get k = some v ↔ (k, v) ∈ m.entries := by
  rw [get, Option.map_eq_some_iff]
  constructor
  · rintro ⟨⟨k', v⟩, hfn, rfl⟩
    obtain ⟨hm, rfl⟩ := (find_sorted m.sorted).mp hfn
    exact hm
  · intro hm
    exact ⟨(k, v), (find_sorted m.sorted).mpr ⟨hm, rfl⟩, rfl⟩

theorem ext_get {m m' : OrdMap κ ν} (h : ∀ k, m.get k = m'.get k) : m = m' := by
  obtain ⟨es, hes⟩ := m
  obtain ⟨es', hes'⟩ := m'
  have hirr : Std.Irrefl fun a b : κ × ν => a.1 < b.1 := ⟨fun a => lt_irrefl a.1⟩
  have hant : Std.Antisymm fun a b : κ × ν => a.1 < b.1 := ⟨fun a b hab hba => absurd hab hba.asymm⟩
  congr 1
  refine hes.eq_of_mem_iff hes' fun e => ?_
  rw [← get_eq_some (m := ⟨es, hes⟩), ← get_eq_some (m := ⟨es', hes'⟩), h]

@[simp] theorem get_empty (k : κ) : (empty : OrdMap κ ν).get k = none := rfl

theorem insertEntry_split (k : κ) (v : ν) {es : List (κ × ν)} (h : es.Pairwise fun a b => a.1 < b.1) :
    ∃ l₁ l₂, (∀ e ∈ l₁ ++ l₂, e.1 ≠ k) ∧ es = l₁ ++ (es.find? fun e => e.1 = k).toList ++ l₂ ∧
      insertEntry k v es = l₁ ++ (k, v) :: l₂ := by
  induction es with
  | nil => exact ⟨[], [], by simp, rfl, rfl⟩
  | cons a es ih =>
    obtain ⟨ha, hes⟩ := pairwise_cons.mp h
    rw [insertEntry]
    split_ifs with hk hk'
    · have hne : ∀ e ∈ a :: es, e.1 ≠ k := by
        intro e he
        rcases mem_cons.mp he with rfl | he
        · exact hk.ne'
        · exact (hk.trans (ha e he)).ne'
      refine ⟨[], a :: es, hne, ?_, rfl⟩
      rw [find?_eq_none.mpr fun e he => by simpa using hne e he]
      rfl
    · obtain ⟨l₁, l₂, hne, hsp, hins⟩ := ih hes
      refine ⟨a :: l₁, l₂, forall_mem_cons.mpr ⟨hk'.ne, hne⟩, ?_, by rw [hins]; rfl⟩
      rw [find?_cons_of_neg (by simpa using hk'.ne), cons_append, cons_append, ← hsp]
    · obtain rfl : a.1 = k := le_antisymm (not_lt.mp hk) (not_lt.mp hk')
      exact ⟨[], es, fun e he => (ha e he).ne', by simp, rfl⟩

theorem entries_set (m : OrdMap κ ν) (k : κ) (v : ν) : ∃ l₁ l₂, (∀ e ∈ l₁ ++ l₂, e.1 ≠ k) ∧
    m.entries = l₁ ++ ((m.get k).map (k, ·)).toList ++ l₂ ∧ (m.set k v).entries = l₁ ++ (k, v) :: l₂ := by
  obtain ⟨l₁, l₂, hne, hsp, hs⟩ := insertEntry_split k v m.sorted
  refine ⟨l₁, l₂, hne, ?_, hs⟩
  have hget : (m.get k).map (k, ·) = m.entries.find? fun e => e.1 = k := by
    rw [get, Option.map_map]
    cases hfn : m.entries.find? fun e => e.1 = k with
    | none => rfl
    | some e => exact congrArg some (Prod.ext ((find_sorted m.sorted).mp hfn).2.symm rfl)
  rwa [hget]

theorem get_set_self (m : OrdMap κ ν) (k : κ) (v : ν) : (m.set k v).get k = some v := by
  have : ∀ es : List (κ × ν), (insertEntry k v es).find? (fun e => e.1 = k) = some (k, v) := by
    intro es
    induction es with
    | nil => simp [insertEntry]
    | cons a es ih =>
      rw [insertEntry]
      split_ifs with hk hk'
      · simp
      · rw [find?_cons_of_neg (by simpa using hk'.ne), ih]
      · simp
  rw [get, set, this, Option.map_some]

theorem get_set_ne (m : OrdMap κ ν) (v : ν) (h : k' ≠ k) : (m.set k v).get k' = m.get k' := by
  have : ∀ es : List (κ × ν), (insertEntry k v es).find? (fun e => e.1 = k') = es.find? fun e => e.1 = k' := by
    intro es
    induction es with
    | nil => simp [insertEntry, h.symm]
    | cons a es ih =>
      rw [insertEntry]
      split_ifs with hk hk'
      · simp [h.symm]
      · rw [find?_cons, find?_cons, ih]
      · obtain rfl : a.1 = k := le_antisymm (not_lt.mp hk) (not_lt.mp hk')
        simp [h.symm]
  rw [get, get, set, this]

theorem get_set (m : OrdMap κ ν) (k k' : κ) (v : ν) : (m.set k v).get k' = if k' = k then some v else m.get k' := by
  split_ifs with h
  · rw [h, get_set_self]
  · exact get_set_ne m v h

theorem get_delete (m : OrdMap κ ν) (k k' : κ) : (m.delete k).get k' = if k' = k then none else m.get k' := by
  refine Option.ext fun v => ?_
  rw [get_eq_some, delete, mem_filter]
  split_ifs with h
  · simp [h]
  · simp [h, get_eq_some]

theorem get_modify (m : OrdMap κ ν) (k k' : κ) (f : ν → ν) :
    (m.modify k f).get k' = if k' = k then (m.get k').map f else m.get k' := by
  rw [modify]
  cases hv : m.get k with
  | none =>
    split_ifs with h
    · rw [h, Option.elim_none, hv, Option.map_none]
    · rfl
  | some v =>
    rw [Option.elim_some, get_set]
    split_ifs with h
    · rw [h, hv, Option.map_some]
    · rfl

theorem get_mapValues (m : OrdMap κ ν) (k : κ) (f : ν → ν) : (m.mapValues f).get k = (m.get k).map f := by
  rw [get, get, mapValues, find?_map, Option.map_map, Option.map_map]
  rfl

/-! ### Range scans -/

theorem seekGE_eq_none {lower upper : κ} :
    m.seekGE lower upper k = none ↔ ∀ k' v, m.get k' = some v → ¬(lower ≤ k' ∧ k' < upper ∧ k ≤ k') := by
  rw [seekGE, find?_eq_none]
  constructor
  · intro h k' v hget
    simpa using h (k', v) (get_eq_some.mp hget)
  · rintro h ⟨k', v⟩ hm
    simpa using h k' v (get_eq_some.mpr hm)

theorem seekGE_eq_some {lower upper : κ} (h : m.seekGE lower upper k = some (k', v)) :
    m.get k' = some v ∧ (lower ≤ k' ∧ k' < upper ∧ k ≤ k') ∧
      ∀ k₁ v₁, m.get k₁ = some v₁ → lower ≤ k₁ ∧ k₁ < upper ∧ k ≤ k₁ → k' ≤ k₁ := by
  rw [seekGE, find?_eq_some_iff_append] at h
  obtain ⟨hin, as, bs, heq, has⟩ := h
  have hm : (k', v) ∈ m.entries := by simp [heq]
  refine ⟨get_eq_some.mpr hm, by simpa using hin, fun k₁ v₁ hget hin₁ => ?_⟩
  have hs := m.sorted
  have hm₁ := get_eq_some.mp hget
  rw [heq, pairwise_append] at hs
  rw [heq, mem_append, mem_cons] at hm₁
  rcases hm₁ with hm₁ | hm₁ | hm₁
  · have ho := has _ hm₁
    rw [Bool.not_eq_true', decide_eq_false_iff_not] at ho
    exact absurd hin₁ ho
  · cases hm₁
    exact le_rfl
  · exact (rel_of_pairwise_cons hs.2.1 hm₁).le

end OrdMap
