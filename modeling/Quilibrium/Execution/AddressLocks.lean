import Mathlib.Data.Multiset.Bind
import Mathlib.Data.Nat.SuccPred
import Quilibrium.Hypergraph.Crdt

/-! # Address locks

`Lock` and `Unlock` of the token, the global and the hypergraph intrinsic, which have the same text. -/

namespace Quilibrium
open List Function

/-- How often an address is locked, and whether it is locked for writing. Counts in the map are positive: 0 is no entry. -/
structure AddressLocks where
  lockedReads : Bytes → Nat
  lockedWrites : Bytes → Bool

namespace AddressLocks

def empty : AddressLocks := ⟨fun _ => 0, fun _ => false⟩

def touch (count : Nat → Nat) (mark : Bool → Bool) (l : AddressLocks) (address : Bytes) : AddressLocks :=
  ⟨update l.lockedReads address (count (l.lockedReads address)), update l.lockedWrites address (mark (l.lockedWrites address))⟩

def lockError (address : Bytes) (reason : String) : String :=
  "address " ++ VectorCommitmentTree.hex address ++ " is " ++ reason

def lock (l : AddressLocks) (writeAddresses readAddresses : List Bytes) : AddressLocks × Option String :=
  let refused := (writeAddresses.findSome? fun address =>
    if l.lockedWrites address then some (lockError address "already locked for writing")
    else if l.lockedReads address ≠ 0 then some (lockError address "already locked for reading")
    else none).or (readAddresses.findSome? fun address =>
    if l.lockedWrites address then some (lockError address "already locked for writing") else none)
  match refused with
  | some err => (l, wrap "lock" (some err))
  | none => (readAddresses.foldl (touch (· + 1) id) (writeAddresses.foldl (touch (· + 1) fun _ => true) l), none)

def unlock (l : AddressLocks) (writeAddresses readAddresses : List Bytes) : AddressLocks × Option String :=
  let altered := writeAddresses.foldl (touch id fun _ => false) l
  match readAddresses.find? altered.lockedWrites with
  | some address => (l, wrap "unlock" (some (lockError address "still locked for writing")))
  | none => (readAddresses.foldl (touch Nat.pred id) (writeAddresses.foldl (touch Nat.pred fun _ => false) l), none)

/-! ### Outstanding locks -/

/-- How often these locks name an address. -/
def reading (held : Multiset (List Bytes × List Bytes)) (a : Bytes) : Nat :=
  (held.map fun x => x.1.count a + x.2.count a).sum

def writing (held : Multiset (List Bytes × List Bytes)) (a : Bytes) : Bool :=
  a ∈ held.bind fun x => (x.1 : Multiset Bytes)

/-- An address that one of the locks writes is in no other. -/
def Exclusive (held : Multiset (List Bytes × List Bytes)) : Prop :=
  ∀ x rest, held = x ::ₘ rest → ∀ y ∈ rest, ∀ a ∈ x.1, a ∉ y.1 ∧ a ∉ y.2

/-- Calls of `Lock`, with the successful ones undone in any order. -/
inductive Reaches : AddressLocks → Multiset (List Bytes × List Bytes) → Prop
  | new : Reaches empty 0
  | lock {l l' held} {x : List Bytes × List Bytes} : Reaches l held → l.lock x.1 x.2 = (l', none) → Reaches l' (x ::ₘ held)
  | fail {l l' held err} {x : List Bytes × List Bytes} : Reaches l held → l.lock x.1 x.2 = (l', some err) → Reaches l' held
  | unlock {l l' held err} {x : List Bytes × List Bytes} :
    Reaches l (x ::ₘ held) → l.unlock x.1 x.2 = (l', err) → Reaches l' held

variable {l l' : AddressLocks} {held : Multiset (List Bytes × List Bytes)} {x : List Bytes × List Bytes} {a : Bytes}

theorem foldl_touch (count : Nat → Nat) (mark : Bool → Bool) (xs : List Bytes) : xs.foldl (touch count mark) l =
    ⟨fun a => count^[xs.count a] (l.lockedReads a), fun a => mark^[xs.count a] (l.lockedWrites a)⟩ := by
  induction xs generalizing l with
  | nil => rfl
  | cons x xs ih =>
    rw [foldl_cons, ih]
    congr 1 <;> funext a <;> by_cases ha : a = x <;> simp [touch, ha, eq_comm (a := x)]

theorem iterate_const (b c : Bool) (n : Nat) : (fun _ => b)^[n] c = if n = 0 then c else b := by
  cases n with
  | zero => rfl
  | succ n => rw [iterate_succ_apply', if_neg n.succ_ne_zero]

theorem reading_cons : reading (x ::ₘ held) a = reading held a + x.1.count a + x.2.count a := by
  simp only [reading, Multiset.map_cons, Multiset.sum_cons]
  omega

theorem reading_eq_zero : reading held a = 0 ↔ ∀ y ∈ held, a ∉ y.1 ∧ a ∉ y.2 := by
  induction held using Multiset.induction with
  | empty => simp [reading]
  | cons x held ih =>
    simp only [reading_cons, Nat.add_eq_zero_iff, count_eq_zero, ih, Multiset.forall_mem_cons]
    tauto

theorem writing_eq_false : writing held a = false ↔ ∀ y ∈ held, a ∉ y.1 := by simp [writing]

theorem lock_failed {writes reads : List Bytes} {err : String} (h : l.lock writes reads = (l', some err)) : l' = l := by
  simp only [lock] at h
  split at h <;> grind

theorem lock_held (h : lock ⟨reading held, writing held⟩ x.1 x.2 = (l', none)) :
    l' = ⟨reading (x ::ₘ held), writing (x ::ₘ held)⟩ ∧ (∀ a ∈ x.1, reading held a = 0) ∧
      ∀ a ∈ x.1 ++ x.2, writing held a = false := by
  simp only [lock] at h
  split at h
  · simp [wrap] at h
  next hfree =>
    simp only [Option.or_eq_none_iff, findSome?_eq_none_iff] at hfree
    refine ⟨?_, by grind, by grind⟩
    rw [← (Prod.mk.inj h).1, foldl_touch, foldl_touch]
    congr 1 <;> funext a
    · simp [reading_cons]
    · by_cases ha : a ∈ x.1 <;> simp [iterate_const, count_eq_zero, writing, ha]

theorem unlock_held (h : Exclusive (x ::ₘ held)) :
    unlock ⟨reading (x ::ₘ held), writing (x ::ₘ held)⟩ x.1 x.2 = (⟨reading held, writing held⟩, none) := by
  have hmark : (fun a => (fun _ => false)^[x.1.count a] (writing (x ::ₘ held) a)) = writing held := by
    funext a
    by_cases ha : a ∈ x.1
    · have := writing_eq_false.2 fun y hy => (h x held rfl y hy a ha).1
      simp [iterate_const, count_eq_zero, ha, this]
    · simp [iterate_const, count_eq_zero, writing, ha]
  have hreads : x.2.find? (writing held) = none := by
    rw [find?_eq_none]
    intro a ha hw
    obtain ⟨y, hy, hay⟩ := Multiset.mem_bind.1 (of_decide_eq_true hw)
    obtain ⟨rest, rfl⟩ := Multiset.exists_cons_of_mem hy
    exact (h y (x ::ₘ rest) (Multiset.cons_swap ..) x (Multiset.mem_cons_self ..) a hay).2 ha
  simp only [unlock, foldl_touch, hmark, hreads, iterate_id, id]
  congr 2
  funext a
  rw [Nat.pred_iterate, Nat.pred_iterate, reading_cons]
  omega

theorem Reaches.eq_held (h : Reaches l held) : l = ⟨reading held, writing held⟩ ∧ Exclusive held := by
  induction h with
  | new => exact ⟨rfl, by simp [Exclusive]⟩
  | lock _ hlock ih =>
    obtain ⟨rfl, hex⟩ := ih
    obtain ⟨rfl, hnew, hold⟩ := lock_held hlock
    refine ⟨rfl, fun y rest hy z hz a ha => ?_⟩
    obtain ⟨rfl, rfl⟩ | ⟨-, rest, rfl, rfl⟩ := Multiset.cons_eq_cons.1 hy
    · exact reading_eq_zero.1 (hnew a ha) z hz
    obtain rfl | hz := Multiset.mem_cons.1 hz
    · have hfree : a ∉ z.1 ++ z.2 := fun h => writing_eq_false.1 (hold a h) y (Multiset.mem_cons_self ..) ha
      exact not_or.1 (mt mem_append.2 hfree)
    · exact hex y rest rfl z hz a ha
  | fail _ hlock ih => rwa [lock_failed hlock]
  | @unlock _ _ _ _ x _ hunlock ih =>
    obtain ⟨rfl, hex⟩ := ih
    rw [unlock_held hex] at hunlock
    refine ⟨(Prod.mk.inj hunlock).1.symm, ?_⟩
    rintro y rest rfl z hz
    exact hex y (x ::ₘ rest) (Multiset.cons_swap x y rest) z (Multiset.mem_cons_of_mem hz)

/-- Locks exclude each other, the tables are those of the outstanding locks, and each of these can be undone. -/
theorem locks_exclusive_and_balanced (h : Reaches l held) :
    (∀ writes reads l' err, l.lock writes reads = (l', some err) → l' = l) ∧ Exclusive held ∧
      l = ⟨reading held, writing held⟩ ∧ (∀ x rest, held = x ::ₘ rest → (l.unlock x.1 x.2).2 = none) ∧
      (held = 0 → l = empty) := by
  obtain ⟨rfl, hex⟩ := h.eq_held
  refine ⟨fun _ _ _ _ => lock_failed, hex, rfl, ?_, ?_⟩
  · rintro x rest rfl
    rw [unlock_held hex]
  · rintro rfl
    rfl

theorem locks_exclusive_and_balanced_repeated : ((empty.lock [[1], [1]] [[1]]).1.unlock [[1], [1]] [[1]]).2 = none :=
  (locks_exclusive_and_balanced (.lock (x := ([[1], [1]], [[1]])) .new rfl)).2.2.2.1 _ 0 rfl

end AddressLocks

end Quilibrium
