import Mathlib.Data.List.Induction
import Mathlib.Tactic.Common

/-! Sequencing of computations that may fail. -/

namespace Except

variable {ε α β : Type}

@[simp] theorem ok_bind (a : α) (f : α → Except ε β) : (Except.ok a >>= f) = f a := rfl

@[simp] theorem error_bind (e : ε) (f : α → Except ε β) : (Except.error e >>= f) = Except.error e := rfl

theorem bind_eq_ok {x : Except ε α} {f : α → Except ε β} {b : β} :
    (x >>= f) = .ok b ↔ ∃ a, x = .ok a ∧ f a = .ok b := by
  cases x with
  | error e => simp
  | ok a => simp

def okAnd (p : α → Bool) : Except ε α → Bool
  | .ok a => p a
  | .error _ => false

theorem okAnd_iff {p : α → Bool} {x : Except ε α} : x.okAnd p = true ↔ ∃ a, x = .ok a ∧ p a = true := by
  cases x with
  | error e => simp [okAnd]
  | ok a => simp [okAnd]

end Except

variable {α ε β : Type} {l : List α} {f : β → α → Except ε β} {b : β}

/-- A loop whose every round succeeds and keeps an invariant. The invariant may speak of the elements that
    were passed. -/
theorem List.foldlM_ok_of_inv (I : List α → β → Prop) (hin : I [] b)
    (hst : ∀ done a rest c, l = done ++ a :: rest → I done c → ∃ c', f c a = .ok c' ∧ I (done ++ [a]) c') :
    ∃ c, l.foldlM f b = .ok c ∧ I l c := by
  have from_here : ∀ rest done c, l = done ++ rest → I done c → ∃ c', rest.foldlM f c = .ok c' ∧ I l c' := by
    intro rest
    induction rest with
    | nil =>
      intro done c hl hc
      rw [List.append_nil] at hl
      exact ⟨c, rfl, hl ▸ hc⟩
    | cons a rest ih =>
      intro done c hl hc
      obtain ⟨c₁, hf, hc₁⟩ := hst done a rest c hl hc
      obtain ⟨c', hrs, hc'⟩ := ih (done ++ [a]) c₁ (by simp [hl]) hc₁
      exact ⟨c', by rw [List.foldlM_cons, hf, Except.ok_bind, hrs], hc'⟩
  exact from_here l [] b rfl hin

theorem List.foldlM_append_ok {f : List β → α → Except ε (List β)} {g : α → List β}
    (hf : ∀ a ∈ l, ∀ acc, f acc a = .ok (acc ++ g a)) (acc : List β) : l.foldlM f acc = .ok (acc ++ l.flatMap g) := by
  induction l generalizing acc with
  | nil => simp [pure, Except.pure]
  | cons a l ih =>
    rw [List.foldlM_cons, hf a List.mem_cons_self, Except.ok_bind, ih fun a ha => hf a (List.mem_cons_of_mem _ ha),
      List.flatMap_cons, List.append_assoc]

theorem List.foldlM_error_of_mem {a : α} {e : ε} (ha : a ∈ l)
    (hfl : ∀ b, f b a = .error e) (hon : ∀ b x e', f b x = .error e' → e' = e) (b : β) : l.foldlM f b = .error e := by
  induction l generalizing b with
  | nil => cases ha
  | cons x l ih =>
    rw [List.foldlM_cons]
    cases hx : f b x with
    | error e' => rw [hon b x e' hx, Except.error_bind]
    | ok b' =>
      rcases List.mem_cons.mp ha with rfl | ha
      · rw [hfl] at hx
        cases hx
      · exact ih ha b'

theorem List.singleton_split {x : α} {done rest : List α} (h : [x] = done ++ a :: rest) : done = [] ∧ a = x := by
  cases done with
  | nil => exact ⟨rfl, (List.cons.inj h).1.symm⟩
  | cons b done => simp at h

theorem List.foldl_inv {f : β → α → β} {I : β → Prop} {Q : β → α → Prop} (hin : I b)
    (hst : ∀ b a, I b → Q b a → I (f b a)) (h : ∀ done a rest, l = done ++ a :: rest → Q (done.foldl f b) a) :
    I (l.foldl f b) := by
  induction l using List.reverseRecOn with
  | nil => exact hin
  | append_singleton l a ih =>
    rw [List.foldl_append]
    exact hst _ a (ih fun done c rest heq => h done c (rest ++ [a]) (by simp [heq])) (h l a [] rfl)

theorem List.foldlM_inv_of_ok {c : β} (I : β → Prop)
    (h : l.foldlM f b = .ok c) (hin : I b) (hst : ∀ a ∈ l, ∀ b b', I b → f b a = .ok b' → I b') : I c := by
  induction l generalizing b with
  | nil =>
    cases h
    exact hin
  | cons a l ih =>
    rw [List.foldlM_cons, Except.bind_eq_ok] at h
    obtain ⟨b', hf, hrs⟩ := h
    exact ih hrs (hst a List.mem_cons_self b b' hin hf) fun x hx => hst x (List.mem_cons_of_mem a hx)

theorem List.findM?_ok {p : α → Except ε Bool} {a : α} (h : l.findM? p = .ok (some a)) : a ∈ l ∧ p a = .ok true := by
  induction l with
  | nil => cases h
  | cons x l ih =>
    rw [List.findM?, Except.bind_eq_ok] at h
    obtain ⟨found, hx, h⟩ := h
    cases found with
    | true =>
      cases h
      exact ⟨List.mem_cons_self, hx⟩
    | false =>
      obtain ⟨hm, ha⟩ := ih h
      exact ⟨List.mem_cons_of_mem x hm, ha⟩

theorem List.mapM_ok_iff {f : α → Except ε β} {bs : List β} : l.mapM f = .ok bs ↔ l.map f = bs.map .ok := by
  induction l generalizing bs with
  | nil => cases bs <;> simp [pure, Except.pure]
  | cons a l ih =>
    rw [List.mapM_cons, Except.bind_eq_ok]
    simp only [Except.bind_eq_ok, ih]
    cases bs with
    | nil | cons b bs => simp [pure, Except.pure]

theorem List.mapM_map_ok {f : α → Except ε β} {g : α → β} : l.mapM f = .ok (l.map g) ↔ ∀ a ∈ l, f a = .ok (g a) := by
  rw [mapM_ok_iff, map_map, map_inj_left]
  rfl

theorem List.exists_mapM_ok {f : α → Except ε β} : (∃ bs, l.mapM f = .ok bs) ↔ ∀ a ∈ l, ∃ b, f a = .ok b := by
  simp only [List.mapM_ok_iff]
  induction l with
  | nil => simp
  | cons a l ih =>
    rw [List.forall_mem_cons, ← ih]
    refine ⟨fun ⟨bs, hbs⟩ => ?_, fun ⟨⟨b, hb⟩, bs, hbs⟩ => ⟨b :: bs, by rw [List.map_cons, hb, hbs, List.map_cons]⟩⟩
    cases bs with
    | nil => simp at hbs
    | cons b bs => exact ⟨⟨b, (List.cons.inj hbs).1⟩, bs, (List.cons.inj hbs).2⟩

theorem List.mem_of_mapM_ok {f : α → Except ε β} {bs : List β} (h : l.mapM f = .ok bs)
    (b : β) : b ∈ bs ↔ ∃ a ∈ l, f a = .ok b := by
  rw [← List.mem_map, List.mapM_ok_iff.mp h]
  simp
