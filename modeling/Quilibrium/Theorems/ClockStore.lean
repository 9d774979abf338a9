import Mathlib.Data.List.Induction
import Quilibrium.Lib.Except
import Quilibrium.Store.Clock

/-! The clock store: what is read back of the frames that were put. -/

namespace Quilibrium
open Function Except List

/-! ### Global frames -/

namespace GlobalClock

variable {stored : Nat → Option Bytes} {l : List Bytes} {i fuel : Nat} {gs : List GlobalFrame}

theorem putRequests_snoc (stored : Nat → Option Bytes) (l : List Bytes) (req : Bytes) :
    putRequests stored (l ++ [req]) = update (putRequests stored l) (l.length % 2 ^ 16) (some req) := by
  simp [putRequests, zipIdx_append]

theorem putRequests_eq (hl : l.length ≤ 2 ^ 16) : putRequests stored l i = l[i]?.or (stored i) := by
  induction l using reverseRecOn with
  | nil => rfl
  | append_singleton l req ih =>
    rw [length_append, length_singleton] at hl
    rw [putRequests_snoc, Nat.mod_eq_of_lt (by omega), update_apply, ih (by omega), getElem?_append]
    grind

theorem putRequests_ne_none (hi : i < 2 ^ 16) (h : stored i ≠ none ∨ i < l.length) : putRequests stored l i ≠ none := by
  induction l using reverseRecOn with
  | nil => exact h.resolve_right (Nat.not_lt_zero i)
  | append_singleton l req ih =>
    rw [putRequests_snoc, update_apply]
    split_ifs with heq
    · exact Option.some_ne_none _
    · refine ih (h.imp_right fun hlt => ?_)
      rw [length_append, length_singleton] at hlt
      exact lt_of_le_of_ne (Nat.le_of_lt_succ hlt) fun he => heq (by rw [← he, Nat.mod_eq_of_lt hi])

theorem requests_ne_none (hi : i < 2 ^ 16) (h : stored i ≠ none ∨ ∃ g ∈ gs, i < g.requests.length) :
    gs.foldl (fun s f => putRequests s f.requests) stored i ≠ none := by
  induction gs generalizing stored with
  | nil => exact h.resolve_right (by simp)
  | cons g gs ih =>
    simp only [mem_cons, exists_eq_or_imp, ← or_assoc] at h
    exact ih (h.imp_left (putRequests_ne_none hi))

theorem requests_eq (hi : i < 2 ^ 16) (h : ∀ g ∈ gs, g.requests.length ≤ i) :
    gs.foldl (fun s f => putRequests s f.requests) stored i = stored i := by
  induction gs generalizing stored with
  | nil => rfl
  | cons g gs ih =>
    obtain ⟨hg, hgs⟩ := forall_mem_cons.mp h
    rw [foldl_cons, ih hgs, putRequests_eq (by omega), getElem?_eq_none hg, Option.none_or]

theorem readRequests_end (h : readRequests stored fuel i = .ok l) : stored ((i + l.length) % 2 ^ 16) = none := by
  induction fuel generalizing i l with
  | zero => cases h
  | succ fuel ih =>
    rw [readRequests] at h
    split at h
    next hs =>
      cases h
      exact hs
    next =>
      obtain ⟨l', hl, h⟩ := bind_eq_ok.mp h
      cases h
      rw [length_cons, ← Nat.add_assoc, Nat.add_right_comm]
      exact ih hl

theorem readRequests_eq (hi : i + l.length < 2 ^ 16) (hl : l.length < fuel)
    (h : ∀ k ≤ l.length, stored (i + k) = l[k]?) : readRequests stored fuel i = .ok l := by
  induction l generalizing i fuel with
  | nil =>
    obtain ⟨fuel, rfl⟩ := Nat.exists_eq_succ_of_ne_zero hl.ne_bot
    have hs : stored i = none := h 0 le_rfl
    rw [readRequests, Nat.mod_eq_of_lt (show i < 2 ^ 16 from hi), hs]
  | cons req l ih =>
    rw [length_cons] at hi hl
    obtain ⟨fuel, rfl⟩ := Nat.exists_eq_succ_of_ne_zero (Nat.ne_zero_of_lt hl)
    have hrest := @ih (i + 1) fuel (by omega) (by omega) fun k hk => by
      rw [Nat.add_assoc, Nat.add_comm 1]
      exact h (k + 1) (Nat.succ_le_succ hk)
    have hs : stored i = some req := h 0 (Nat.zero_le _)
    rw [readRequests, Nat.mod_eq_of_lt (by omega), hs, hrest]
    rfl

def under (n : Nat) (puts : List GlobalFrame) : List GlobalFrame := puts.filter (·.frameNumber = n)

theorem foldl_put (n : Nat) (puts : List GlobalFrame) (c : GlobalClock) :
    (puts.foldl put c).headers n = ((under n puts).getLast?.map ({ · with requests := [] })).or (c.headers n) ∧
      (puts.foldl put c).requests n = (under n puts).foldl (fun s f => putRequests s f.requests) (c.requests n) := by
  induction puts using reverseRecOn with
  | nil => exact ⟨rfl, rfl⟩
  | append_singleton puts f ih =>
    rw [foldl_append, foldl_cons, foldl_nil, under, filter_append]
    by_cases hf : f.frameNumber = n
    · subst hf
      simp [put, ih.2, under]
    · simp [put, hf, Ne.symm hf, ih.1, ih.2, under]

/-- A frame is read back as it was put exactly if it has fewer requests than there are keys, and no frame that was put
    under its number had more. -/
theorem get_last_iff (puts : List GlobalFrame) {n : Nat} {f : GlobalFrame} (hf : (under n puts).getLast? = some f) :
    (puts.foldl put empty).get n = .ok (some f) ↔
      f.requests.length < 2 ^ 16 ∧ ∀ g ∈ under n puts, g.requests.length ≤ f.requests.length := by
  obtain ⟨hh, hr⟩ := foldl_put n puts empty
  obtain ⟨gs, hgs⟩ := getLast?_eq_some_iff.mp hf
  rw [hgs, foldl_append, foldl_cons, foldl_nil] at hr
  rw [get, hh, hf, hr, hgs, forall_mem_append, forall_mem_singleton]
  constructor
  · intro h
    obtain ⟨l, hread, h⟩ := bind_eq_ok.mp h
    obtain rfl := congrArg GlobalFrame.requests (Option.some.inj (ok.inj h))
    have hend := readRequests_end hread
    rw [Nat.zero_add] at hend
    have hlt : f.requests.length < 2 ^ 16 := by
      by_contra hge
      exact putRequests_ne_none (Nat.mod_lt _ (by decide)) (.inr (by omega)) hend
    rw [Nat.mod_eq_of_lt hlt] at hend
    refine ⟨hlt, fun g hg => ?_, le_rfl⟩
    by_contra hlong
    exact putRequests_ne_none hlt (.inl (requests_ne_none hlt (.inr ⟨g, hg, not_le.mp hlong⟩))) hend
  · rintro ⟨hlt, hgs, -⟩
    refine bind_eq_ok.mpr ⟨f.requests, readRequests_eq (by omega) (by omega) fun k hk => ?_, rfl⟩
    rw [Nat.zero_add, putRequests_eq hlt.le]
    rcases hk.lt_or_eq with hk | rfl
    · rw [getElem?_eq_getElem hk, Option.some_or]
    · rw [getElem?_eq_none le_rfl, Option.none_or, requests_eq hlt hgs]
      rfl

def plainFrame (requests : List Bytes) : GlobalFrame := ⟨0, 0, 0, [], [], none, requests⟩

/-- The second frame is read back with a request of the first. -/
theorem get_stale :
    ([plainFrame [[1], [2]], plainFrame [[3]]].foldl put empty).get 0 = .ok (some (plainFrame [[3], [2]])) := rfl

theorem get_last_plain : (under 0 [plainFrame [[1]], plainFrame [[3]]]).getLast? = some (plainFrame [[3]]) ∧
    ([plainFrame [[1]], plainFrame [[3]]].foldl put empty).get 0 = .ok (some (plainFrame [[3]])) :=
  ⟨rfl, (get_last_iff _ rfl).mpr ⟨by decide, by simp [under, plainFrame]⟩⟩

end GlobalClock

end Quilibrium
