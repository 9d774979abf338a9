import Mathlib.Data.List.Perm.Basic
import Mathlib.Logic.Function.Basic
import Mathlib.Logic.Relation
import Mathlib.Tactic.Common

/-! # Programs that share a state under one mutex

`wp` says what a program does whatever the others do to the state while it does not hold the mutex (`rely`), with steps
of one kind (`guar`). A system runs one handler at a time for the messages that were sent, beside any number of calls. -/

namespace Monitor
open Function

/-- A program over the shared state `σ` that asks questions with answers `A` and sends messages `ε`. -/
inductive Program (σ : Type) {Q : Type} (A : Q → Type) (ε α : Type) : Type
  | done (a : α)
  | fail
  | lock (k : Program σ A ε α)
  | unlock (k : Program σ A ε α)
  | access (u : σ → σ) (k : σ → Program σ A ε α)
  | send (e : ε) (k : Program σ A ε α)
  | ask (q : Q) (k : A q → Program σ A ε α)

variable {σ Q ε α β : Type} {A : Q → Type}

namespace Program

def bind (p : Program σ A ε α) (f : α → Program σ A ε β) : Program σ A ε β :=
  match p with
  | done a => f a
  | fail => fail
  | lock k => lock (k.bind f)
  | unlock k => unlock (k.bind f)
  | access u k => access u fun s => (k s).bind f
  | send e k => send e (k.bind f)
  | ask q k => ask q fun a => (k a).bind f

instance instMonad : Monad (Program σ A ε) where
  pure := done
  bind := bind

def acquire : Program σ A ε Unit := lock (done ())

def release : Program σ A ε Unit := unlock (done ())

def read (f : σ → α) : Program σ A ε α := access id fun s => done (f s)

def modify (u : σ → σ) : Program σ A ε Unit := access u fun _ => done ()

def emit (e : ε) : Program σ A ε Unit := send e (done ())

def call (q : Q) : Program σ A ε (A q) := ask q done

def deref : Option α → Program σ A ε α
  | none => fail
  | some a => done a

end Program

/-! ### What a program does -/

/-- How a program ends: `blocked` is for a mutex it holds already, `misused` for giving back one it does not hold. -/
inductive Outcome (α : Type)
  | done (a : α)
  | panicked
  | blocked
  | misused

/-- What the others may do to the state, what a step of the program may do, which answers there are, and what an answer
    leaves in the state. -/
structure Rules (σ : Type) {Q : Type} (A : Q → Type) where
  rely : σ → σ → Prop
  guar : σ → σ → Prop
  allowed : (q : Q) → A q → σ → Prop
  observe : (q : Q) → A q → σ → σ

namespace Rules

variable (T : Rules σ A)

/-- What becomes of the state before the program's next step. -/
def Near (held : Bool) (s s' : σ) : Prop := if held then s' = s else T.rely s s'

/-- However the program runs from the state, holding the mutex or not, its steps are in `guar` and it ends with `P`. -/
def wp (held : Bool) : Program σ A ε α → (Bool → Outcome α → σ → Prop) → σ → Prop
  | .done a, P, s => P held (.done a) s
  | .fail, P, s => P held .panicked s
  | .lock k, P, s => if held then P held .blocked s else ∀ s', T.rely s s' → wp true k P s'
  | .unlock k, P, s => if held then wp false k P s else P held .misused s
  | .access u k, P, s => ∀ s', T.Near held s s' → T.guar s' (u s') ∧ wp held (k s') P (u s')
  | .send _ k, P, s => wp held k P s
  | .ask q k, P, s => ∀ s' a, T.Near held s s' → T.allowed q a s' →
      T.guar s' (T.observe q a s') ∧ wp held (k a) P (T.observe q a s')

def andThen (f : α → Program σ A ε β) (P : Bool → Outcome β → σ → Prop) (held : Bool) : Outcome α → σ → Prop
  | .done a, s => T.wp held (f a) P s
  | .panicked, s => P held .panicked s
  | .blocked, s => P held .blocked s
  | .misused, s => P held .misused s

variable {T} {held : Bool} {s s' : σ} {P P' : Bool → Outcome α → σ → Prop}

section
variable (f : α → Program σ A ε β) (P : Bool → Outcome β → σ → Prop)

@[simp] theorem andThen_done (a : α) : T.andThen f P held (.done a) s = T.wp held (f a) P s := rfl

@[simp] theorem andThen_panicked : T.andThen f P held .panicked s = P held .panicked s := rfl

@[simp] theorem andThen_blocked : T.andThen f P held .blocked s = P held .blocked s := rfl

@[simp] theorem andThen_misused : T.andThen f P held .misused s = P held .misused s := rfl

end

@[simp] theorem near_true : T.Near true s s' ↔ s' = s := Iff.rfl

@[simp] theorem near_false : T.Near false s s' ↔ T.rely s s' := Iff.rfl

theorem wp_bind (p : Program σ A ε α) (f : α → Program σ A ε β) (P : Bool → Outcome β → σ → Prop) :
    T.wp held (p >>= f) P s ↔ T.wp held p (T.andThen f P) s := by
  change T.wp held (p.bind f) P s ↔ _
  induction p generalizing held s with
  | done a => rfl
  | fail => rfl
  | lock k ih | unlock k ih => simp only [Program.bind, wp, ih]; rfl
  | access u k ih | send e k ih | ask q k ih => simp [Program.bind, wp, ih]

@[simp] theorem wp_pure (a : α) : T.wp held (pure a : Program σ A ε α) P s ↔ P held (.done a) s := Iff.rfl

theorem wp_release {P : Bool → Outcome Unit → σ → Prop} :
    T.wp true (.release : Program σ A ε Unit) P s ↔ P false (.done ()) s := Iff.rfl

/-! Each step with what follows it. -/

section
variable {f : α → Program σ A ε β} {g : Unit → Program σ A ε β} {P : Bool → Outcome β → σ → Prop}

theorem wp_acquire_bind : T.wp false (.acquire >>= g) P s ↔ ∀ s', T.rely s s' → T.wp true (g ()) P s' := Iff.rfl

theorem wp_acquire_held_bind : T.wp true (.acquire >>= g) P s ↔ P true .blocked s := Iff.rfl

theorem wp_release_bind : T.wp true (.release >>= g) P s ↔ T.wp false (g ()) P s := Iff.rfl

theorem wp_read_bind (r : σ → α) : T.wp true (.read r >>= f) P s ↔ T.guar s s ∧ T.wp true (f (r s)) P s := forall_eq

theorem wp_modify_bind (u : σ → σ) : T.wp true (.modify u >>= g) P s ↔ T.guar s (u s) ∧ T.wp true (g ()) P (u s) := forall_eq

theorem wp_emit_bind (e : ε) : T.wp held (.emit e >>= g) P s ↔ T.wp held (g ()) P s := Iff.rfl

theorem wp_deref_bind_none : T.wp held (.deref none >>= f) P s ↔ P held .panicked s := Iff.rfl

theorem wp_deref_bind_some (a : α) : T.wp held (.deref (some a) >>= f) P s ↔ T.wp held (f a) P s := Iff.rfl

theorem wp_call_bind (q : Q) {f : A q → Program σ A ε β} : T.wp held (.call q >>= f) P s ↔
    ∀ s' a, T.Near held s s' → T.allowed q a s' →
      T.guar s' (T.observe q a s') ∧ T.wp held (f a) P (T.observe q a s') := Iff.rfl

end

theorem wp_mono {p : Program σ A ε α} (h : T.wp held p P s) (hP : ∀ held o s, P held o s → P' held o s) :
    T.wp held p P' s := by
  induction p generalizing held s with
  | done a => exact hP _ _ _ h
  | fail => exact hP _ _ _ h
  | lock k ih =>
    rw [wp] at h ⊢
    split_ifs at h ⊢ with hhl
    · exact hP _ _ _ h
    · exact fun s' hs' => ih (h s' hs')
  | unlock k ih =>
    rw [wp] at h ⊢
    split_ifs at h ⊢ with hhl
    · exact ih h
    · exact hP _ _ _ h
  | access u k ih => exact fun s' hs' => ⟨(h s' hs').1, ih s' (h s' hs').2⟩
  | send e k ih => exact ih h
  | ask q k ih => exact fun s' a hs' ha => ⟨(h s' a hs' ha).1, ih a (h s' a hs' ha).2⟩

theorem wp_rely {p : Program σ A ε α} (htr : ∀ {s₁ s₂ s₃}, T.rely s₁ s₂ → T.rely s₂ s₃ → T.rely s₁ s₃)
    (hP : ∀ o s s', T.rely s s' → P false o s → P false o s') (h : T.wp false p P s) (hs : T.rely s s') :
    T.wp false p P s' := by
  induction p with
  | done a => exact hP _ _ _ hs h
  | fail => exact hP _ _ _ hs h
  | lock k ih =>
    exact fun s'' hs'' => h s'' (htr hs hs'')
  | unlock k ih =>
    exact hP _ _ _ hs h
  | access u k ih => exact fun s'' hs'' => h s'' (htr hs hs'')
  | send e k ih => exact ih h
  | ask q k ih => exact fun s'' a hs'' ha => h s'' a (htr hs hs'') ha

end Rules

/-- The program asks nothing, writes under the mutex only, and its writes are in `rely`. -/
def Guards (rely : σ → σ → Prop) : Bool → Program σ A ε α → Prop
  | _, .done _ => True
  | _, .fail => True
  | _, .lock k => Guards rely true k
  | _, .unlock k => Guards rely false k
  | held, .access u k => (∀ s, rely s (u s)) ∧ (held = true ∨ ∀ s, u s = s) ∧ ∀ s, Guards rely held (k s)
  | held, .send _ k => Guards rely held k
  | _, .ask _ _ => False

/-! ### Systems -/

/-- A loop that handles one message at a time and goes into `recovery` when a handler panics, calls that may be made at
    any time, and messages that come from outside. -/
structure System (σ : Type) {Q : Type} (A : Q → Type) (ε : Type) where
  observe : (q : Q) → A q → σ → σ
  handler : ε → Program σ A ε Unit
  recovery : Program σ A ε Unit
  Calls : Program σ A ε Unit → Prop
  Posts : ε → Prop

/-- Thread 0 is the loop. Messages are delivered in any order. -/
structure Config (σ : Type) {Q : Type} (A : Q → Type) (ε : Type) where
  shared : σ
  owner : Option Nat
  threads : Nat → Option (Program σ A ε Unit)
  crashed : Bool
  sent : List ε

namespace Config

def start (A : Q → Type) (ε : Type) (s : σ) : Config σ A ε := ⟨s, none, fun _ => none, false, []⟩

def resume (c : Config σ A ε) (i : Nat) (p : Option (Program σ A ε Unit)) : Config σ A ε :=
  { c with threads := update c.threads i p }

end Config

namespace System

/-- A step of a run in which all answers are `allowed` and all messages are handled when they `start`. -/
inductive Step (sys : System σ A ε) (allowed : (q : Q) → A q → σ → Prop) (starts : ε → σ → Prop) :
    Config σ A ε → Config σ A ε → Prop
  | finish {c : Config σ A ε} {i : Nat} (hi : c.threads i = some (.done ())) : Step sys allowed starts c (c.resume i none)
  | panic {c : Config σ A ε} {i : Nat} (hi : c.threads i = some .fail) (hcall : i ≠ 0) :
      Step sys allowed starts c (c.resume i none)
  | crash {c : Config σ A ε} (hi : c.threads 0 = some .fail) :
      Step sys allowed starts c { c.resume 0 (some sys.recovery) with crashed := true }
  | lock {c : Config σ A ε} {i : Nat} {k : Program σ A ε Unit} (hi : c.threads i = some (.lock k))
      (hfree : c.owner = none) : Step sys allowed starts c { c.resume i (some k) with owner := some i }
  | unlock {c : Config σ A ε} {i : Nat} {k : Program σ A ε Unit} (hi : c.threads i = some (.unlock k))
      (howner : c.owner = some i) : Step sys allowed starts c { c.resume i (some k) with owner := none }
  | access {c : Config σ A ε} {i : Nat} {u : σ → σ} {k : σ → Program σ A ε Unit}
      (hi : c.threads i = some (.access u k)) :
      Step sys allowed starts c { c.resume i (some (k c.shared)) with shared := u c.shared }
  | send {c : Config σ A ε} {i : Nat} {e : ε} {k : Program σ A ε Unit} (hi : c.threads i = some (.send e k)) :
      Step sys allowed starts c { c.resume i (some k) with sent := e :: c.sent }
  | ask {c : Config σ A ε} {i : Nat} {q : Q} {k : A q → Program σ A ε Unit} (a : A q)
      (hi : c.threads i = some (.ask q k)) (ha : allowed q a c.shared) :
      Step sys allowed starts c { c.resume i (some (k a)) with shared := sys.observe q a c.shared }
  | spawn {c : Config σ A ε} {i : Nat} {p : Program σ A ε Unit} (hfree : c.threads i = none) (hcall : i ≠ 0)
      (howner : c.owner ≠ some i) (hp : sys.Calls p) : Step sys allowed starts c (c.resume i (some p))
  | post {c : Config σ A ε} {e : ε} (he : sys.Posts e) : Step sys allowed starts c { c with sent := e :: c.sent }
  | dispatch {c : Config σ A ε} {e : ε} {rest : List ε} (hidle : c.threads 0 = none) (halive : c.crashed = false)
      (hsent : c.sent.Perm (e :: rest)) (he : starts e c.shared) :
      Step sys allowed starts c { c.resume 0 (some (sys.handler e)) with sent := rest }

def Reaches (sys : System σ A ε) (allowed : (q : Q) → A q → σ → Prop) (starts : ε → σ → Prop) (s : σ) :
    Config σ A ε → Prop :=
  Relation.ReflTransGen (sys.Step allowed starts) (.start A ε s)

/-! ### Runs keep what the programs guarantee -/

/-- A handler that ends has given the mutex back and left the invariant. -/
def Ends (I : σ → Prop) (held : Bool) (o : Outcome Unit) (s : σ) : Prop := o = .done () → held = false ∧ I s

/-- The handlers keep an invariant whatever the calls do, and the calls do nothing else. -/
structure Keeps (sys : System σ A ε) (T : Rules σ A) (starts : ε → σ → Prop) (I : σ → Prop) : Prop where
  observe : T.observe = sys.observe
  refl : ∀ s, T.rely s s
  trans : ∀ {s₁ s₂ s₃}, T.rely s₁ s₂ → T.rely s₂ s₃ → T.rely s₁ s₃
  guar : ∀ {s s'}, T.rely s s' → T.guar s s'
  stable : ∀ {s s'}, T.rely s s' → I s → I s'
  handler : ∀ e s, I s → starts e s → T.wp false (sys.handler e) (Ends I) s
  calls : ∀ p, sys.Calls p → Guards T.rely false p
  recovery : ∀ held, Guards T.rely held sys.recovery

structure Fits (T : Rules σ A) (I : σ → Prop) (c : Config σ A ε) : Prop where
  idle : c.threads 0 = none → c.crashed = false → I c.shared ∧ c.owner ≠ some 0
  running : ∀ p, c.threads 0 = some p → c.crashed = false → T.wp (decide (c.owner = some 0)) p (Ends I) c.shared
  recovering : ∀ p, c.threads 0 = some p → c.crashed = true → Guards T.rely (decide (c.owner = some 0)) p
  callers : ∀ i p, i ≠ 0 → c.threads i = some p → Guards T.rely (decide (c.owner = some i)) p

variable {sys : System σ A ε} {T : Rules σ A} {starts : ε → σ → Prop} {I : σ → Prop} {c c' : Config σ A ε} {i : Nat}
  {p : Option (Program σ A ε Unit)}

theorem Fits.call_step (h : Fits T I c) (hkp : sys.Keeps T starts I) (hi : i ≠ 0)
    (ht : c'.threads = update c.threads i p) (hcr : c'.crashed = c.crashed)
    (howner : ∀ j ≠ i, c'.owner = some j ↔ c.owner = some j)
    (hs : c'.shared = c.shared ∨ c.owner ≠ some 0 ∧ T.rely c.shared c'.shared)
    (hp : ∀ q, p = some q → Guards T.rely (decide (c'.owner = some i)) q) : Fits T I c' := by
  have hzr : c'.threads 0 = c.threads 0 := by rw [ht, update_of_ne hi.symm]
  have howner₀ := howner 0 hi.symm
  refine ⟨fun hidle halive => ?_, fun q hq halive => ?_, fun q hq hdd => ?_, fun j q hj hq => ?_⟩
  · obtain ⟨hI, hfree⟩ := h.idle (hzr ▸ hidle) (hcr ▸ halive)
    refine ⟨?_, mt howner₀.mp hfree⟩
    rcases hs with heq | ⟨-, hrl⟩
    · rwa [heq]
    · exact hkp.stable hrl hI
  · have hwp := h.running q (hzr ▸ hq) (hcr ▸ halive)
    simp only [howner₀]
    rcases hs with heq | ⟨hfree, hrl⟩
    · rwa [heq]
    · rw [decide_eq_false hfree] at hwp ⊢
      exact Rules.wp_rely hkp.trans (fun _ _ _ hrl hend ho => ⟨(hend ho).1, hkp.stable hrl (hend ho).2⟩) hwp hrl
  · simp only [howner₀]
    exact h.recovering q (hzr ▸ hq) (hcr ▸ hdd)
  · by_cases hji : j = i
    · subst hji
      rw [ht, update_self] at hq
      exact hp q hq
    · rw [ht, update_of_ne hji] at hq
      simp only [howner j hji]
      exact h.callers j q hj hq

theorem Fits.loop_step (h : Fits T I c) (ht : c'.threads = update c.threads 0 p)
    (howner : ∀ j ≠ 0, c'.owner = some j ↔ c.owner = some j)
    (hidle : p = none → c'.crashed = false → I c'.shared ∧ c'.owner ≠ some 0)
    (hrnn : ∀ q, p = some q → c'.crashed = false → T.wp (decide (c'.owner = some 0)) q (Ends I) c'.shared)
    (hr : ∀ q, p = some q → c'.crashed = true → Guards T.rely (decide (c'.owner = some 0)) q) : Fits T I c' := by
  have hzr : c'.threads 0 = p := by rw [ht, update_self]
  refine ⟨hzr ▸ hidle, fun q hq => hrnn q (hzr ▸ hq), fun q hq => hr q (hzr ▸ hq), fun j q hj hq => ?_⟩
  rw [ht, update_of_ne hj] at hq
  simp only [howner j hj]
  exact h.callers j q hj hq

theorem Fits.thread (h : Fits T I c) {q : Program σ A ε Unit} (hi : c.threads i = some q) :
    (i = 0 ∧ c.crashed = false ∧ T.wp (decide (c.owner = some i)) q (Ends I) c.shared) ∨
      (i = 0 → c.crashed = true) ∧ Guards T.rely (decide (c.owner = some i)) q := by
  by_cases hzr : i = 0
  · subst hzr
    cases hcr : c.crashed with
    | false => exact .inl ⟨rfl, rfl, h.running q hi hcr⟩
    | true => exact .inr ⟨fun _ => rfl, h.recovering q hi hcr⟩
  · exact .inr ⟨fun heq => absurd heq hzr, h.callers i q hzr hi⟩

theorem Fits.goes_on (h : Fits T I c) (hkp : sys.Keeps T starts I) {q q' : Program σ A ε Unit}
    (hi : c.threads i = some q) (ht : c'.threads = update c.threads i (some q'))
    (hcr : c'.crashed = c.crashed) (howner : ∀ j ≠ i, c'.owner = some j ↔ c.owner = some j)
    (hs : i ≠ 0 → c'.shared = c.shared ∨ c.owner ≠ some 0 ∧ T.rely c.shared c'.shared)
    (hwp : T.wp (decide (c.owner = some i)) q (Ends I) c.shared → T.wp (decide (c'.owner = some i)) q' (Ends I) c'.shared)
    (hgua : Guards T.rely (decide (c.owner = some i)) q → Guards T.rely (decide (c'.owner = some i)) q') :
    Fits T I c' := by
  rcases h.thread hi with ⟨rfl, halive, hr⟩ | ⟨hdd, hg⟩
  · refine h.loop_step ht howner nofun (fun _ hq _ => Option.some.inj hq ▸ hwp hr) ?_
    exact fun _ _ hdd => absurd (halive.symm.trans (hcr.symm.trans hdd)) Bool.false_ne_true
  · by_cases hzr : i = 0
    · subst hzr
      refine h.loop_step ht howner nofun (fun _ _ halive => ?_) fun _ hq _ =>
        Option.some.inj hq ▸ hgua hg
      exact absurd (halive.symm.trans (hcr.trans (hdd rfl))) Bool.false_ne_true
    · exact h.call_step hkp hzr ht hcr howner (hs hzr) fun _ hq => Option.some.inj hq ▸ hgua hg

theorem Keeps.near (h : sys.Keeps T starts I) (held : Bool) (s : σ) : T.Near held s s := by
  cases held with
  | false => exact h.refl s
  | true => rfl

theorem Fits.step (h : Fits T I c) (hkp : sys.Keeps T starts I) (hst : sys.Step T.allowed starts c c') :
    Fits T I c' ∧ T.guar c.shared c'.shared := by
  have hsm : T.guar c.shared c.shared := hkp.guar (hkp.refl _)
  cases hst with
  | @finish i hi =>
    refine ⟨?_, hsm⟩
    by_cases hzr : i = 0
    · subst hzr
      refine h.loop_step rfl (fun _ _ => Iff.rfl) (fun _ halive => ?_) nofun nofun
      obtain ⟨hhl, hI⟩ := h.running _ hi halive rfl
      exact ⟨hI, of_decide_eq_false hhl⟩
    · exact h.call_step hkp hzr rfl rfl (fun _ _ => Iff.rfl) (.inl rfl) nofun
  | panic hi hcall =>
    exact ⟨h.call_step hkp hcall rfl rfl (fun _ _ => Iff.rfl) (.inl rfl) nofun, hsm⟩
  | crash hi =>
    refine ⟨h.loop_step rfl (fun _ _ => Iff.rfl) nofun nofun ?_, hsm⟩
    rintro q hq -
    exact Option.some.inj hq ▸ hkp.recovery _
  | @lock i k hi hfree =>
    have howner : ∀ j ≠ i, some i = some j ↔ c.owner = some j := fun j hj => by
      rw [hfree]
      exact iff_of_false (fun heq => hj (Option.some.inj heq).symm) (Option.some_ne_none j).symm
    have hhl : decide (c.owner = some i) = false := decide_eq_false fun heq => by rw [hfree] at heq; cases heq
    refine ⟨h.goes_on hkp hi rfl rfl howner (fun _ => .inl rfl) (fun hwp => ?_) fun hg => ?_, hsm⟩
    · rw [hhl, Rules.wp, if_neg Bool.false_ne_true] at hwp
      exact decide_eq_true (Eq.refl (some i)) ▸ hwp _ (hkp.refl _)
    · exact decide_eq_true (Eq.refl (some i)) ▸ hg
  | @unlock i k hi hon =>
    have howner : ∀ j ≠ i, none = some j ↔ c.owner = some j := fun j hj => by
      rw [hon]
      exact iff_of_false (Option.some_ne_none j).symm fun heq => hj (Option.some.inj heq).symm
    refine ⟨h.goes_on hkp hi rfl rfl howner (fun _ => .inl rfl) (fun hwp => ?_) id, hsm⟩
    rw [decide_eq_true hon, Rules.wp, if_pos rfl] at hwp
    exact hwp
  | @access i u k hi =>
    refine ⟨h.goes_on hkp hi rfl rfl (fun _ _ => Iff.rfl) (fun hzr => ?_)
      (fun hwp => (hwp c.shared (hkp.near _ _)).2) fun hg => hg.2.2 _, ?_⟩
    · obtain ⟨hrl, hw, -⟩ := h.callers i _ hzr hi
      by_cases hon : c.owner = some 0
      · have hfree : decide (c.owner = some i) = false :=
          decide_eq_false fun heq => hzr (Option.some.inj (heq.symm.trans hon))
        exact .inl (hw.resolve_left (by rw [hfree]; exact Bool.false_ne_true) _)
      · exact .inr ⟨hon, hrl _⟩
    · rcases h.thread hi with ⟨-, -, hwp⟩ | ⟨-, hg⟩
      · exact (hwp c.shared (hkp.near _ _)).1
      · exact hkp.guar (hg.1 _)
  | @send i e k hi => exact ⟨h.goes_on hkp hi rfl rfl (fun _ _ => Iff.rfl) (fun _ => .inl rfl) id id, hsm⟩
  | @ask i q k a hi ha =>
    -- only the loop asks
    rcases h.thread hi with ⟨rfl, -, hwp⟩ | ⟨-, hg⟩
    · obtain ⟨hgr, hnx⟩ := hwp c.shared a (hkp.near _ _) ha
      rw [hkp.observe] at hgr hnx
      exact ⟨h.goes_on hkp hi rfl rfl (fun _ _ => Iff.rfl) (absurd rfl) (fun _ => hnx) False.elim, hgr⟩
    · exact hg.elim
  | @spawn i q hfree hcall howner hq =>
    refine ⟨h.call_step hkp hcall rfl rfl (fun _ _ => Iff.rfl) (.inl rfl) fun q' hq' => ?_, hsm⟩
    have hhl : decide (c.owner = some i) = false := decide_eq_false howner
    exact Option.some.inj hq' ▸ hhl ▸ hkp.calls q hq
  | post he => exact ⟨⟨h.idle, h.running, h.recovering, h.callers⟩, hsm⟩
  | @dispatch e rest hidle halive hsent he =>
    obtain ⟨hI, hfree⟩ := h.idle hidle halive
    refine ⟨h.loop_step rfl (fun _ _ => Iff.rfl) nofun (fun q hq _ => ?_) fun q hq hdd => ?_, hsm⟩
    · have hhl : decide (c.owner = some 0) = false := decide_eq_false hfree
      exact Option.some.inj hq ▸ hhl ▸ hkp.handler e c.shared hI he
    · exact absurd (halive.symm.trans hdd) Bool.false_ne_true

theorem Fits.start {s : σ} (h : I s) : Fits T I (Config.start A ε s) :=
  ⟨fun _ _ => ⟨h, (Option.some_ne_none 0).symm⟩, nofun, nofun,
    nofun⟩

/-- In every run from a state with the invariant, every step is one that is guaranteed. -/
theorem Keeps.guarantees (hkp : sys.Keeps T starts I) {s : σ} (hs : I s) (hc : sys.Reaches T.allowed starts s c)
    (hst : sys.Step T.allowed starts c c') : T.guar c.shared c'.shared := by
  have hft : ∀ c, sys.Reaches T.allowed starts s c → Fits T I c := by
    intro c hc
    induction hc with
    | refl => exact .start hs
    | tail _ hst ih => exact (ih.step hkp hst).1
  exact ((hft c hc).step hkp hst).2

theorem Keeps.guarantees_run (hkp : sys.Keeps T starts I)
    (htr : ∀ {s₁ s₂ s₃}, T.guar s₁ s₂ → T.guar s₂ s₃ → T.guar s₁ s₃) {s : σ} (hs : I s)
    (hc : sys.Reaches T.allowed starts s c) (hr : Relation.ReflTransGen (sys.Step T.allowed starts) c c') :
    T.guar c.shared c'.shared := by
  induction hr with
  | refl => exact hkp.guar (hkp.refl _)
  | tail hr hst ih => exact htr ih (hkp.guarantees hs (hc.trans hr) hst)

/-! ### Runs of the loop alone -/

section Drive
variable (sys) (allowed : (q : Q) → A q → σ → Prop) (starts : ε → σ → Prop) [∀ q a s, Decidable (allowed q a s)]
  [∀ e s, Decidable (starts e s)] (answer : (q : Q) → σ → A q)

/-- Runs a program to its end, with the state and the messages that are there then. -/
def exec (held : Bool) : Program σ A ε Unit → σ → List ε → Option (σ × List ε)
  | .done (), s, sent => if held then none else some (s, sent)
  | .fail, _, _ => none
  | .lock k, s, sent => if held then none else exec true k s sent
  | .unlock k, s, sent => if held then exec false k s sent else none
  | .access u k, s, sent => exec held (k s) (u s) sent
  | .send e k, s, sent => exec held k s (e :: sent)
  | .ask q k, s, sent =>
    if allowed q (answer q s) s then exec held (k (answer q s)) (sys.observe q (answer q s) s) sent else none

def drive [DecidableEq ε] : List ε → σ → List ε → Option (σ × List ε)
  | [], s, sent => some (s, sent)
  | e :: rest, s, sent =>
    if e ∈ sent ∧ starts e s then
      (sys.exec allowed answer false (sys.handler e) s (sent.erase e)).bind fun end_ => drive rest end_.1 end_.2
    else none

/-- The loop runs `p`, or waits for a message, and nothing else runs. -/
def alone (held : Bool) (p : Option (Program σ A ε Unit)) (s : σ) (sent : List ε) : Config σ A ε :=
  ⟨s, if held then some 0 else none, update (fun _ => none) 0 p, false, sent⟩

variable {s s' : σ} {sent sent' : List ε} {held : Bool}

theorem alone_threads {p : Option (Program σ A ε Unit)} : (alone held p s sent).threads 0 = p := by
  simp [alone]

theorem alone_resume {p p' : Option (Program σ A ε Unit)} :
    (alone held p s sent).resume 0 p' = alone held p' s sent := by
  simp [alone, Config.resume]

theorem start_eq_alone : Config.start A ε s = alone false none s [] := by
  simp [alone, Config.start]

variable {sys allowed starts answer}

omit [∀ e s, Decidable (starts e s)] in
theorem exec_steps {p : Program σ A ε Unit} (h : sys.exec allowed answer held p s sent = some (s', sent')) :
    Relation.ReflTransGen (sys.Step allowed starts) (alone held (some p) s sent) (alone false none s' sent') := by
  induction p generalizing held s sent with
  | done a =>
    cases held with
    | true => cases h
    | false =>
      cases h
      have hst : sys.Step allowed starts (alone false (some (.done ())) s' sent') _ := .finish alone_threads
      rw [alone_resume] at hst
      exact .single hst
  | fail => cases h
  | lock k ih =>
    cases held with
    | true => cases h
    | false =>
      have hst : sys.Step allowed starts (alone false (some (.lock k)) s sent) _ := .lock alone_threads rfl
      rw [alone_resume] at hst
      exact .head hst (ih h)
  | unlock k ih =>
    cases held with
    | true =>
      have hst : sys.Step allowed starts (alone true (some (.unlock k)) s sent) _ := .unlock alone_threads rfl
      rw [alone_resume] at hst
      exact .head hst (ih h)
    | false => cases h
  | access u k ih =>
    have hst : sys.Step allowed starts (alone held (some (.access u k)) s sent) _ := .access alone_threads
    rw [alone_resume] at hst
    exact .head hst (ih s h)
  | send e k ih =>
    have hst : sys.Step allowed starts (alone held (some (.send e k)) s sent) _ := .send alone_threads
    rw [alone_resume] at hst
    exact .head hst (ih h)
  | ask q k ih =>
    rw [exec] at h
    split_ifs at h with ha
    have hst : sys.Step allowed starts (alone held (some (.ask q k)) s sent) _ := .ask (answer q s) alone_threads ha
    rw [alone_resume] at hst
    exact .head hst (ih _ h)

theorem drive_steps [DecidableEq ε] {evs : List ε}
    (h : sys.drive allowed starts answer evs s sent = some (s', sent')) :
    Relation.ReflTransGen (sys.Step allowed starts) (alone false none s sent) (alone false none s' sent') := by
  induction evs generalizing s sent with
  | nil => cases h; exact .refl
  | cons e rest ih =>
    rw [drive] at h
    split_ifs at h with he
    obtain ⟨⟨s₁, sent₁⟩, hec, hrs⟩ := Option.bind_eq_some_iff.mp h
    have hst : sys.Step allowed starts (alone false none s sent) _ :=
      .dispatch alone_threads rfl (List.perm_cons_erase he.1) he.2
    rw [alone_resume] at hst
    exact .head hst ((exec_steps hec).trans (ih hrs))

omit [∀ q a s, Decidable (allowed q a s)] [∀ e s, Decidable (starts e s)] in
theorem post_steps {posts : List ε} (hps : ∀ e ∈ posts, sys.Posts e) :
    sys.Reaches allowed starts s (alone false none s posts) := by
  induction posts with
  | nil =>
    rw [← start_eq_alone]
    exact .refl
  | cons e rest ih =>
    obtain ⟨he, hrs⟩ := List.forall_mem_cons.mp hps
    exact .tail (ih hrs) (.post he)

theorem drive_reaches [DecidableEq ε] {posts evs : List ε} (hps : ∀ e ∈ posts, sys.Posts e) (h : sys.drive allowed starts answer evs s posts = some (s', sent')) :
    sys.Reaches allowed starts s (alone false none s' sent') :=
  (post_steps hps).trans (drive_steps h)

end Drive

end System

end Monitor
