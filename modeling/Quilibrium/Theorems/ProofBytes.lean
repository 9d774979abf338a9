import Quilibrium.Theorems.Serialize

/-! The byte form of a traversal proof. A short `buf.Read` is no error, but every strict prefix is rejected, and so is a
    proof without evaluations. -/

namespace Quilibrium
open List

/-! ### Readers of truncated input -/

/-- The reader takes these bytes off the front of any buffer. A strict prefix of them makes it fail or, if `short`, empties
    the buffer. -/
structure Reader.Exact {α : Type} (r : Reader α) (b : Bytes) (a : α) (short : Prop) : Prop where
  reads : r.Reads b a
  cut : ∀ b' x rest, b' <+: b → b' ≠ b → r b' = .ok (x, rest) → short ∧ rest = []

section
variable {α β : Type} {r : Reader α} {f : α → Reader β} {b c : Bytes} {a : α} {y : β} {short short' : Prop}

theorem Reader.Exact.bind (h : r.Exact b a short) (hf : (f a).Exact c y short')
    (hsh : short → ∀ x y rest, f x [] = .ok (y, rest) → short' ∧ rest = []) : (r >>= f).Exact (b ++ c) y short' where
  reads := h.reads.bind hf.reads
  cut b' z rest hb hne hz := by
    change (r b').bind (fun p => f p.1 p.2) = _ at hz
    obtain hlt | hge := Nat.lt_or_ge b'.length b.length
    · cases hx : r b' with
      | error err =>
        rw [hx] at hz
        cases hz
      | ok p =>
        rw [hx] at hz
        have hb' := prefix_of_prefix_length_le hb (prefix_append b c) hlt.le
        obtain ⟨hs, hm⟩ := h.cut b' p.1 p.2 hb' (fun heq => by rw [heq] at hlt; omega) hx
        exact hsh hs p.1 z rest (hm ▸ hz)
    · obtain ⟨c', rfl⟩ := prefix_of_prefix_length_le (prefix_append b c) hb hge
      rw [h.reads] at hz
      exact hf.cut c' z rest ((prefix_append_right_inj b).mp hb) (fun heq => hne (by rw [heq])) hz

theorem exact_pure (a : α) : (pure a : Reader α).Exact [] a short where
  reads := reads_pure a
  cut _ _ _ hb hne := absurd (prefix_nil.mp hb) hne

theorem Reader.Exact.map (h : r.Exact b a short) (g : α → β) :
    (do let x ← r; return g x : Reader β).Exact b (g a) short := by
  have hbn := h.bind (f := fun x => pure (g x)) (exact_pure (g a)) fun hs _ _ _ hx => ⟨hs, by cases hx; rfl⟩
  rwa [append_nil] at hbn

theorem exact_readN {ι : Type} (f : ι → Bytes) (g : ι → α) (l : List ι) (h : ∀ i ∈ l, r.Exact (f i) (g i) short)
    {err : String} (hnil : r [] = .error err) : (readN r l.length).Exact (l.flatMap f) (l.map g) short := by
  induction l with
  | nil => exact exact_pure []
  | cons i l ih =>
    refine (h i mem_cons_self).bind ((ih fun j hj => h j (mem_cons_of_mem _ hj)).map (g i :: ·)) fun hs x y rest hy => ?_
    rcases l with _ | ⟨j, l⟩
    · cases hy
      exact ⟨hs, rfl⟩
    · change ((r []).bind _).bind _ = _ at hy
      rw [hnil] at hy
      cases hy

end

theorem exact_full {b : Bytes} : (readFull b.length).Exact b b False where
  reads rest := by rw [readFull, if_pos (by rw [length_append]; omega), take_left, drop_left]
  cut b' x rest hb hne h := by
    have hlt := hb.length_le.lt_of_ne fun heq => hne (hb.eq_of_length heq)
    rw [readFull, if_neg (by omega)] at h
    split at h <;> cases h

theorem exact_uint32 {n : Nat} (h : n < 2 ^ 32) : readUint32.Exact (uint32BE n) n False := by
  have hm := (exact_full (b := uint32BE n)).map natOfBE
  rwa [natOfBE_uint32BE h] at hm

theorem exact_uint64 (n : UInt64) : readUint64.Exact (uint64BE n.toNat) n False := by
  have hm := (exact_full (b := uint64BE n.toNat)).map fun b => UInt64.ofNat (natOfBE b)
  rwa [natOfBE_uint64BE n.toNat_lt, UInt64.ofNat_toNat] at hm

theorem exact_bytes {b : Bytes} (h : b.length < 2 ^ 32) : readBytes.Exact (writeBytes b) b True := by
  refine (exact_uint32 h).bind (f := bufRead) ⟨fun rest => ?_, fun b' x rest hb hne hx => ⟨trivial, ?_⟩⟩ False.elim
  · by_cases hnil : b ++ rest = []
    · obtain ⟨rfl, rfl⟩ := append_eq_nil_iff.mp hnil
      rfl
    · have hpad : b.length - (b ++ rest).length = 0 := by
        rw [length_append]
        omega
      rw [bufRead, if_neg hnil, take_left, drop_left, hpad, replicate_zero, append_nil]
  · have hlt := hb.length_le.lt_of_ne fun heq => hne (hb.eq_of_length heq)
    rw [bufRead] at hx
    split_ifs at hx
    · cases hx
      rfl
    · cases hx
      exact drop_eq_nil_of_le hlt.le

theorem exact_list {α : Type} {r : Reader α} {w : α → Bytes} {l : List α} {short : Prop} (hl : l.length < 2 ^ 32)
    (h : ∀ a ∈ l, r.Exact (w a) a short) {err : String} (hnil : r [] = .error err) :
    (readList r).Exact (writeList w l) l short := by
  have hls := exact_readN w id l h hnil
  rw [map_id] at hls
  exact (exact_uint32 hl).bind hls False.elim

/-! ### The proof -/

/-- Counts and lengths are those that four bytes can hold. -/
structure TraversalSubProof.Encodable (p : TraversalSubProof) : Prop where
  commits : p.commits.length < 2 ^ 32 ∧ ∀ b ∈ p.commits, b.length < 2 ^ 32
  ys : p.ys.length < 2 ^ 32 ∧ ∀ b ∈ p.ys, b.length < 2 ^ 32
  paths : p.paths.length < 2 ^ 32 ∧ ∀ q ∈ p.paths, q.length < 2 ^ 32

/-- The proof has an evaluation, and its subproofs can be written. -/
structure TraversalProof.Encodable (p : TraversalProof) : Prop where
  evaluated : ∃ s ∈ p.subProofs, s.ys ≠ []
  subProofs : p.subProofs.length < 2 ^ 32 ∧ ∀ s ∈ p.subProofs, s.Encodable

def InclusionProver.RoundTrips (prover : InclusionProver) (m : Multiproof) : Prop :=
  ∃ b, prover.multiproofToBytes m = .ok b ∧ b.length < 2 ^ 32 ∧ prover.multiproofFromBytes b = .ok m

theorem exact_subProof {p : TraversalSubProof} (h : p.Encodable) : readSubProof.Exact p.toBytes p False := by
  have hcm := exact_list h.commits.1 (fun b hb => exact_bytes (h.commits.2 b hb)) rfl
  have hys := exact_list h.ys.1 (fun b hb => exact_bytes (h.ys.2 b hb)) rfl
  have hpt := exact_list h.paths.1 (fun q hq => exact_list (h.paths.2 q hq) (fun i _ => exact_uint64 i) rfl) rfl
  rw [TraversalSubProof.toBytes, append_assoc]
  exact hcm.bind (hys.bind (hpt.map _) fun _ _ _ _ hy => by cases hy) nofun

def TraversalProof.reader (prover : InclusionProver) : Reader TraversalProof := do
  let multiproofBytes ← readBytes
  match prover.multiproofFromBytes multiproofBytes with
  | .error err => throw ("from bytes: " ++ err)
  | .ok multiproof =>
    let subProofs ← readList readSubProof
    if subProofs = [] then throw "from bytes: no subproofs found"
    else if subProofs.all (·.ys = []) then throw "from bytes: invalid payload: no ys data in any subproof"
    else return { multiproof, subProofs }

theorem TraversalProof.fromBytes_eq (prover : InclusionProver) (b : Bytes) :
    fromBytes prover b = (reader prover b).map Prod.fst := by
  change ((readBytes b).bind fun q => _) = Except.map _ ((readBytes b).bind fun q => _)
  cases readBytes b with
  | error err => rfl
  | ok q =>
    dsimp only [Except.bind]
    cases prover.multiproofFromBytes q.1 with
    | error err => rfl
    | ok multiproof =>
      change ((readList readSubProof q.2).bind fun q => _) = Except.map _ ((readList readSubProof q.2).bind fun q => _)
      cases readList readSubProof q.2 with
      | error err => rfl
      | ok q =>
        dsimp only [Except.bind]
        split_ifs <;> rfl

section
variable {prover : InclusionProver} {p : TraversalProof}

theorem TraversalProof.exact_reader (h : p.Encodable) {m : Bytes} (hm : m.length < 2 ^ 32)
    (hrn : prover.multiproofFromBytes m = .ok p.multiproof) :
    (reader prover).Exact (writeBytes m ++ writeList TraversalSubProof.toBytes p.subProofs) p False := by
  refine (exact_bytes hm).bind ?_ fun _ x y rest hy => ?_
  · rw [hrn]
    have hsub := exact_list h.subProofs.1 (fun s hs => exact_subProof (h.subProofs.2 s hs)) rfl
    obtain ⟨s, hs, hys⟩ := h.evaluated
    rw [← append_nil (writeList _ _)]
    refine hsub.bind ?_ False.elim
    rw [if_neg (ne_nil_of_mem hs), if_neg fun hall => hys (of_decide_eq_true (all_eq_true.mp hall s hs))]
    exact exact_pure p
  · cases hx : prover.multiproofFromBytes x <;> simp only [hx] at hy <;> cases hy

theorem yields_full (n : Nat) : (readFull n).Yields fun b => b.length = n := by
  intro buf b rest h
  rw [readFull] at h
  split_ifs at h
  cases h
  rw [length_take]
  omega

theorem yields_uint32 : readUint32.Yields (· < 2 ^ 32) :=
  (yields_full 4).bind fun b hb => yields_pure ((natOfBE_lt b).trans_eq (by rw [hb]; rfl))

theorem yields_readBytes : readBytes.Yields fun b => b.length < 2 ^ 32 := by
  refine yields_uint32.bind fun n hn buf b rest h => ?_
  rw [bufRead] at h
  split_ifs at h <;> cases h
  · exact Nat.two_pow_pos 32
  · rw [length_append, length_take, length_replicate]
    omega

theorem yields_list {α : Type} {r : Reader α} {P : α → Prop} (h : r.Yields P) :
    (readList r).Yields fun l => l.length < 2 ^ 32 ∧ ∀ a ∈ l, P a :=
  yields_uint32.bind fun _ hcn buf l rest hl =>
    have hrd := yields_readN h _ buf l rest hl
    ⟨hrd.1.trans_lt hcn, hrd.2⟩

theorem yields_subProof : readSubProof.Yields TraversalSubProof.Encodable := by
  have hin : readUint64.Yields fun _ => True := fun _ _ _ _ => trivial
  refine (yields_list yields_readBytes).bind fun _ hcm => (yields_list yields_readBytes).bind fun _ hys =>
    (yields_list (yields_list hin)).bind fun _ hpt => yields_pure ⟨hcm, hys, hpt.1, fun q hq => ?_⟩
  exact (hpt.2 q hq).1

theorem TraversalProof.yields_reader : (reader prover).Yields TraversalProof.Encodable := by
  refine yields_readBytes.bind fun m _ => ?_
  split
  · exact yields_throw _
  · refine (yields_list yields_subProof).bind fun subProofs hsub => ?_
    split_ifs with hnil hall
    · exact yields_throw _
    · exact yields_throw _
    · simp only [all_eq_true, decide_eq_true_eq, not_forall] at hall
      obtain ⟨s, hs, hys⟩ := hall
      exact yields_pure ⟨⟨s, hs, hys⟩, hsub⟩

end

def sampleTraversal (ys : List Bytes) : TraversalProof := ⟨⟨[1], [1]⟩, [⟨[[1]], ys, [[3]]⟩]⟩

end Quilibrium
