import Quilibrium.Consensus.Requests
import Quilibrium.Theorems.Prove
import Quilibrium.Theorems.Validator
import Mathlib.Data.Set.Function

/-! Requests and headers: the requests root determines the hashes of the messages, but the validators compare it with
    nothing. -/

namespace Quilibrium
open Radix Except List Option Item

/-! ### Fixed-length numbers -/

theorem uint32BE_inj {m n : Nat} (h : uint32BE m = uint32BE n) : m % 2 ^ 32 = n % 2 ^ 32 := by
  simp only [uint32BE, cons.injEq, and_true, ← UInt8.toNat_inj, UInt8.toNat_ofNat', Nat.shiftRight_eq_div_pow] at h
  omega

theorem uint64BE_inj {m n : Nat} (h : uint64BE m = uint64BE n) (hm : m < 2 ^ 64) (hn : n < 2 ^ 64) : m = n := by
  obtain ⟨hhg, hl⟩ := append_inj h rfl
  have hhg := uint32BE_inj hhg
  have hl := uint32BE_inj hl
  omega

theorem flatMap_uint32BE_inj {q q' : List Nibble}
    (h : (q.map Fin.val).flatMap uint32BE = (q'.map Fin.val).flatMap uint32BE) : q = q' := by
  rw [flatMap_map, flatMap_map] at h
  have hl : ∀ i : Nibble, (uint32BE i.val).length = 4 := fun _ => rfl
  refine flatMap_injective hl (by decide) (fun i j hij => ?_) h
  have := uint32BE_inj hij
  exact Fin.ext (by omega)

/-! ### Commitments bind -/

section
variable (sha512 : Digest 64) (prover : InclusionProver)

def Item.preimage (a : Item) : Bytes := 0 :: a.key ++ a.target

def branchPreimage (q : List Nibble) (out : Bytes) : Bytes := 1 :: (q.map Fin.val).flatMap uint32BE ++ out

/-- The hash tells the inputs apart and is never zero; the commitments tell the vectors apart and take 74 bytes. -/
structure Collisionless (inputs vectors : Set Bytes) : Prop where
  hash : Set.InjOn sha512.sum inputs
  hash_ne : ∀ x ∈ inputs, sha512.sum x ≠ List.replicate 64 0
  commit : Set.InjOn (fun v => prover.commitRaw v 64) vectors
  commit_length : ∀ v ∈ vectors, (prover.commitRaw v 64).length = 74

/-- What is hashed and committed to in the tree is among the inputs and vectors. -/
def HashedIn (inputs vectors : Set Bytes) : Trie 64 (List Nibble) Item → Prop
  | .nil => True
  | .leaf a => a.preimage ∈ inputs
  | .branch q children =>
    branchPreimage q (commitOf sha512 prover (.branch q children)) ∈ inputs ∧
      polynomialOf sha512 prover children ∈ vectors ∧ ∀ i, HashedIn inputs vectors (children i)

end

def Item.bound (a : Item) : Bytes × Bytes := (a.key, a.target)

section
variable {sha512 : Digest 64} {prover : InclusionProver} {inputs vectors : Set Bytes} {len : Nat}
  {t u : Trie 64 (List Nibble) Item}

theorem Item.bound_eq {a b : Item} (hkey : a.key.length = b.key.length) (h : a.preimage = b.preimage) :
    a.bound = b.bound := by
  obtain ⟨hk, ht⟩ := append_inj (cons.inj h).2 hkey
  rw [bound, bound, hk, ht]

theorem Item.preimage_ne_branch {a : Item} {q : List Nibble} {out : Bytes} : a.preimage ≠ branchPreimage q out := by
  intro h
  cases (cons.inj h).1

section
variable (hfree : Collisionless sha512 prover inputs vectors)
include hfree

theorem Collisionless.polynomial_eq {q q' : List Nibble} {ch ch' : Fin 64 → Trie 64 (List Nibble) Item}
    (ht : HashedIn sha512 prover inputs vectors (.branch q ch))
    (hu : HashedIn sha512 prover inputs vectors (.branch q' ch'))
    (h : commitOf sha512 prover (.branch q ch) = commitOf sha512 prover (.branch q' ch')) (i : Nibble) :
    entryOf sha512 (ch i) (commitOf sha512 prover (ch i)) =
      entryOf sha512 (ch' i) (commitOf sha512 prover (ch' i)) := by
  have hpl : polynomialOf sha512 prover ch = polynomialOf sha512 prover ch' := hfree.commit ht.2.1 hu.2.1 h
  rw [← entryAt_polynomialOf, hpl, entryAt_polynomialOf]

theorem Collisionless.entry_inj (ht : HashedIn sha512 prover inputs vectors t)
    (hu : HashedIn sha512 prover inputs vectors u) (htl : ∀ a ∈ t.leaves, a.key.length = len)
    (hul : ∀ a ∈ u.leaves, a.key.length = len)
    (h : entryOf sha512 t (commitOf sha512 prover t) = entryOf sha512 u (commitOf sha512 prover u)) :
    t.map id bound = u.map id bound := by
  induction t generalizing u with
  | nil =>
    cases u with
    | nil => rfl
    | leaf b => exact absurd h.symm (hfree.hash_ne _ hu)
    | branch q' ch' => exact absurd h.symm (hfree.hash_ne _ hu.1)
  | leaf a =>
    cases u with
    | nil => exact absurd h (hfree.hash_ne _ ht)
    | leaf b =>
      have hkey : a.key.length = b.key.length :=
        (htl a (mem_singleton_self a)).trans (hul b (mem_singleton_self b)).symm
      rw [Trie.map_leaf, Trie.map_leaf, bound_eq hkey (hfree.hash ht hu h)]
    | branch q' ch' => exact absurd (hfree.hash ht hu.1 h) preimage_ne_branch
  | branch q ch ih =>
    cases u with
    | nil => exact absurd h (hfree.hash_ne _ ht.1)
    | leaf b => exact absurd (hfree.hash hu ht.1 h.symm) preimage_ne_branch
    | branch q' ch' =>
      have ho := (hfree.commit_length _ ht.2.1).trans (hfree.commit_length _ hu.2.1).symm
      obtain ⟨hq, hc⟩ := append_inj' (cons.inj (hfree.hash ht.1 hu.1 h)).2 ho
      have hch : ∀ i, (ch i).map id bound = (ch' i).map id bound := fun i =>
        ih i (ht.2.2 i) (hu.2.2 i) (fun a ha => htl a (Trie.mem_leaves_branch.mpr ⟨i, ha⟩))
          (fun a ha => hul a (Trie.mem_leaves_branch.mpr ⟨i, ha⟩)) (hfree.polynomial_eq ht hu hc i)
      rw [Trie.map_branch, Trie.map_branch, flatMap_uint32BE_inj hq, funext hch]

theorem Collisionless.rootCommit_length {q : List Nibble} {ch : Fin 64 → Trie 64 (List Nibble) Item}
    (ht : HashedIn sha512 prover inputs vectors (.branch q ch)) :
    (rootCommitOf sha512 prover (.branch q ch)).length = 74 :=
  hfree.commit_length _ ht.2.1

/-- Trees with one root commitment bind the same keys to the same targets. The prefix of a branch at the root is in
    no hash, so it is for the leaves to tell. -/
theorem Collisionless.rootCommit_inj (ht : HashedIn sha512 prover inputs vectors t)
    (hu : HashedIn sha512 prover inputs vectors u) (htl : ∀ a ∈ t.leaves, a.key.length = len)
    (hul : ∀ a ∈ u.leaves, a.key.length = len) (h : rootCommitOf sha512 prover t = rootCommitOf sha512 prover u) :
    t.leaves.map bound = u.leaves.map bound := by
  rw [← Trie.leaves_map id, ← Trie.leaves_map id]
  -- a branch is told apart from the rest by the length of its commitment
  have hlg := congrArg length h
  cases t with
  | nil =>
    cases u with
    | nil => rfl
    | leaf b => rw [hfree.entry_inj ht hu htl hul h]
    | branch q' ch' => cases hlg.trans (hfree.rootCommit_length hu)
  | leaf a =>
    cases u with
    | nil | leaf b => rw [hfree.entry_inj ht hu htl hul h]
    | branch q' ch' => cases a.hash_length.symm.trans (hlg.trans (hfree.rootCommit_length hu))
  | branch q ch =>
    cases u with
    | nil => cases hlg.symm.trans (hfree.rootCommit_length ht)
    | leaf b => cases b.hash_length.symm.trans (hlg.symm.trans (hfree.rootCommit_length ht))
    | branch q' ch' =>
      have hch : ∀ i, (ch i).map id bound = (ch' i).map id bound := fun i =>
        hfree.entry_inj (ht.2.2 i) (hu.2.2 i) (fun a ha => htl a (Trie.mem_leaves_branch.mpr ⟨i, ha⟩))
          (fun a ha => hul a (Trie.mem_leaves_branch.mpr ⟨i, ha⟩)) (hfree.polynomial_eq ht hu h i)
      simp [Trie.map_branch, Trie.leaves, hch]

end

end

/-! ### The requests root -/

structure Holding (sha512 : Digest 64) (prover : InclusionProver) (messages : List Message) (t : VectorCommitmentTree) :
    Prop where
  holds : ∃ b, Holds sha512 prover 8 b t
  mem_leaves : ∀ a, a ∈ (skel t.root).leaves ↔ ∃ i hash, messages[i]?.bind Message.hash = some hash ∧ a = requestItem i hash

def requestsTree (messages : List Message) : VectorCommitmentTree :=
  match insertHashes messages.zipIdx .empty with
  | .ok (.ok tree) => tree
  | _ => .empty

section
variable {sha512 : Digest 64} {prover : InclusionProver} {messages : List Message} {t : VectorCommitmentTree}

variable {hash : Bytes} {msg : Message} {i : Nat}

theorem hash_append : (messages ++ [msg])[i]?.bind Message.hash = some hash ↔
      messages[i]?.bind Message.hash = some hash ∨ i = messages.length ∧ msg.hash = some hash := by
  rcases lt_trichotomy i messages.length with hi | rfl | hi
  · rw [getElem?_append_left hi]
    exact ⟨.inl, fun h => h.resolve_right fun h => hi.ne h.1⟩
  · simp
  · have hl : (messages ++ [msg]).length ≤ i := by rw [length_append, length_singleton]; omega
    rw [getElem?_eq_none hi.le, getElem?_eq_none hl]
    simp [hi.ne']

theorem lt_length_of_hash (h : messages[i]?.bind Message.hash = some hash) : i < messages.length := by
  obtain ⟨msg, hm, -⟩ := bind_eq_some_iff.mp h
  exact (List.getElem?_eq_some_iff.mp hm).1

theorem holding_empty : Holding sha512 prover [] .empty :=
  ⟨⟨_, holds_empty sha512 prover 8⟩, fun a => by simp [VectorCommitmentTree.empty, skel]⟩

section
variable (h : Holding sha512 prover messages t)
include h

theorem Holding.skip (hhs : msg.hash = none) : Holding sha512 prover (messages ++ [msg]) t := by
  refine ⟨h.holds, fun a => ?_⟩
  simp [h.mem_leaves, hash_append, hhs, reduceCtorEq, and_false]

theorem Holding.insert (hhs : msg.hash = some hash) (hl : messages.length < 2 ^ 64) :
    ∃ t', t.insert (requestItem messages.length hash) = .ok (t', none) ∧
      Holding sha512 prover (messages ++ [msg]) t' := by
  obtain ⟨b, hb⟩ := h.holds
  have hkey : (requestItem messages.length hash).key.length = 8 := rfl
  obtain ⟨t', hins, hb', -⟩ := hb.insert (by decide) hkey
  refine ⟨t', hins, ⟨_, hb'⟩, fun a => ?_⟩
  have hnew : a ∈ (skel t'.root).leaves ↔
      Function.update b (uint64BE messages.length) (some (requestItem messages.length hash)) a.key = some a :=
    ⟨fun ha => (hb'.binds _ _).mpr ⟨ha, rfl⟩, fun ha => ((hb'.binds _ _).mp ha).1⟩
  have ho : b a.key = some a ↔ ∃ i hash', messages[i]?.bind Message.hash = some hash' ∧ a = requestItem i hash' := by
    rw [← h.mem_leaves, hb.binds]
    exact and_iff_left rfl
  simp only [hnew, hash_append, Function.update_apply]
  split_ifs with hk
  · constructor
    · intro ha
      exact ⟨_, _, .inr ⟨rfl, hhs⟩, (some.inj ha).symm⟩
    · rintro ⟨i, hash', hi | ⟨rfl, hash_eq⟩, rfl⟩
      · have hlt := lt_length_of_hash hi
        exact absurd (uint64BE_inj hk (hlt.trans hl) hl) hlt.ne
      · rw [some.inj (hhs.symm.trans hash_eq)]
  · rw [ho]
    constructor
    · rintro ⟨i, hash', hi, ha⟩
      exact ⟨i, hash', .inl hi, ha⟩
    · rintro ⟨i, hash', hi | ⟨rfl, -⟩, rfl⟩
      · exact ⟨i, hash', hi, rfl⟩
      · exact absurd rfl hk

theorem insertHashes_spec {rest : List Message} (hl : (messages ++ rest).length ≤ 2 ^ 64) :
    ∃ t', insertHashes (rest.zipIdx messages.length) t = .ok (.ok t') ∧ Holding sha512 prover (messages ++ rest) t' := by
  induction rest generalizing messages t with
  | nil => exact ⟨t, rfl, (append_nil messages).symm ▸ h⟩
  | cons msg rest ih =>
    have happ : messages ++ msg :: rest = (messages ++ [msg]) ++ rest := by simp
    have hlg : (messages ++ [msg]).length = messages.length + 1 := by simp
    rw [happ] at hl ⊢
    rw [zipIdx_cons, insertHashes]
    cases hhs : msg.hash with
    | none =>
      obtain ⟨t', hrs, ht'⟩ := ih (h.skip hhs) hl
      exact ⟨t', hlg ▸ hrs, ht'⟩
    | some hash =>
      have hlt : messages.length < 2 ^ 64 := by
        rw [length_append, hlg] at hl
        omega
      obtain ⟨t₁, hins, ht₁⟩ := h.insert hhs hlt
      obtain ⟨t', hrs, ht'⟩ := ih ht₁ hl
      simp only [hins, ok_bind]
      exact ⟨t', hlg ▸ hrs, ht'⟩

end

variable (sha512 prover) in
theorem requestsTree_spec (hl : messages.length ≤ 2 ^ 64) :
    insertHashes messages.zipIdx .empty = .ok (.ok (requestsTree messages)) ∧
      Holding sha512 prover messages (requestsTree messages) := by
  have hl : ([] ++ messages).length ≤ 2 ^ 64 := hl
  obtain ⟨t, hins, ht⟩ := insertHashes_spec (@holding_empty sha512 prover) hl
  have hins : insertHashes messages.zipIdx .empty = .ok (.ok t) := hins
  rw [requestsTree, hins]
  exact ⟨rfl, ht⟩

theorem calculateRequestsRoot_ok {root : Bytes} (hl : messages.length ≤ 2 ^ 64)
    (h : calculateRequestsRoot sha512 prover messages = .ok (.ok root)) :
    root = rootCommitOf sha512 prover (skel (requestsTree messages).root) := by
  obtain ⟨hins, ht⟩ := requestsTree_spec sha512 prover hl
  obtain ⟨b, hb⟩ := ht.holds
  rw [calculateRequestsRoot] at h
  split_ifs at h with hnil
  · cases hnil
    exact (ok.inj (ok.inj h)).symm
  · rw [hins, ok_bind] at h
    dsimp only at h
    split_ifs at h
    · cases ok.inj h
    · rw [← (VectorCommitmentTree.commit_spec false hb.coherent).1]
      exact (ok.inj (ok.inj h)).symm

theorem Holding.hash_of_leaves {messages' : List Message} {t' : VectorCommitmentTree} (h : Holding sha512 prover messages t)
    (h' : Holding sha512 prover messages' t') (hl : messages.length ≤ 2 ^ 64) (hl' : messages'.length ≤ 2 ^ 64)
    (hlvs : (skel t.root).leaves.map bound = (skel t'.root).leaves.map bound)
    (hi : messages[i]?.bind Message.hash = some hash) : messages'[i]?.bind Message.hash = some hash := by
  have hm : (requestItem i hash).bound ∈ (skel t'.root).leaves.map bound :=
    hlvs ▸ mem_map_of_mem ((h.mem_leaves _).mpr ⟨i, hash, hi, rfl⟩)
  obtain ⟨a, ha, hbn⟩ := mem_map.mp hm
  obtain ⟨j, hash', hj, rfl⟩ := (h'.mem_leaves a).mp ha
  obtain ⟨hkey, ht⟩ := Prod.mk.inj hbn
  cases uint64BE_inj hkey ((lt_length_of_hash hj).trans_le hl') ((lt_length_of_hash hi).trans_le hl)
  cases (ht : hash' = hash)
  exact hj

theorem calculateRequestsRoot_inj {inputs vectors : Set Bytes} {messages' : List Message} {root : Bytes}
    (hfree : Collisionless sha512 prover inputs vectors) (hl : messages.length ≤ 2 ^ 64)
    (hl' : messages'.length ≤ 2 ^ 64)
    (hin : HashedIn sha512 prover inputs vectors (skel (requestsTree messages).root))
    (hin' : HashedIn sha512 prover inputs vectors (skel (requestsTree messages').root))
    (h : calculateRequestsRoot sha512 prover messages = .ok (.ok root))
    (h' : calculateRequestsRoot sha512 prover messages' = .ok (.ok root)) (i : Nat) :
    messages[i]?.bind Message.hash = messages'[i]?.bind Message.hash := by
  obtain ⟨-, ht⟩ := requestsTree_spec sha512 prover hl
  obtain ⟨-, ht'⟩ := requestsTree_spec sha512 prover hl'
  obtain ⟨b, hb⟩ := ht.holds
  obtain ⟨b', hb'⟩ := ht'.holds
  have hlvs := hfree.rootCommit_inj hin hin' (fun _ ha => hb.shaped.key_length ha) (fun _ ha => hb'.shaped.key_length ha)
    ((calculateRequestsRoot_ok hl h).symm.trans (calculateRequestsRoot_ok hl' h'))
  refine ext fun hash => ⟨fun hi => ?_, fun hi => ?_⟩
  · exact ht.hash_of_leaves ht' hl hl' hlvs hi
  · exact ht'.hash_of_leaves ht hl' hl hlvs.symm hi

end

/-! ### Bodies and headers -/

section
variable {Bundle : Type} (sha512 : Digest 64) (prover : InclusionProver) (fromCanonicalBytes : Bytes → Option Bundle)
  (digest : Bytes → Bytes) (inputs vectors payloads : Set Bytes)

/-- The frame was put together by `internalProveFrame` from messages that all carry the hash of their payload. -/
structure Built (frame : FrameMessage FrameHeader Bundle) (header : FrameHeader) (messages : List Message) : Prop where
  header_eq : frame.header = some header
  root : calculateRequestsRoot sha512 prover messages = .ok (.ok header.requestsRoot)
  requests : frame.requests = messagesToRequests fromCanonicalBytes messages
  hashes : ∀ msg ∈ messages, msg.hash = some (digest msg.payload) ∧ msg.payload ∈ payloads
  length_le : messages.length ≤ 2 ^ 64
  within : HashedIn sha512 prover inputs vectors (skel (requestsTree messages).root)

variable {sha512 prover fromCanonicalBytes digest inputs vectors payloads}

theorem Built.requests_eq (hfree : Collisionless sha512 prover inputs vectors) (hdg : Set.InjOn digest payloads)
    {frame frame' : FrameMessage FrameHeader Bundle} {hdr hdr' : FrameHeader} {messages messages' : List Message}
    (h : Built sha512 prover fromCanonicalBytes digest inputs vectors payloads frame hdr messages)
    (h' : Built sha512 prover fromCanonicalBytes digest inputs vectors payloads frame' hdr' messages')
    (heq : frame.header = frame'.header) : frame.requests = frame'.requests := by
  have hh : hdr = hdr' := some.inj (h.header_eq.symm.trans (heq.trans h'.header_eq))
  have hinj := calculateRequestsRoot_inj hfree h.length_le h'.length_le h.within h'.within h.root (hh ▸ h'.root)
  have hpay : messages.map Message.payload = messages'.map Message.payload := by
    refine ext_getElem? fun i => ?_
    rw [getElem?_map, getElem?_map]
    have hi := hinj i
    cases hm : messages[i]? with
    | none =>
      cases hm' : messages'[i]? with
      | none => rfl
      | some msg' =>
        rw [hm, hm', bind_some, (h'.hashes msg' (mem_of_getElem? hm')).1] at hi
        cases hi
    | some msg =>
      obtain ⟨hhs, hpyl⟩ := h.hashes msg (mem_of_getElem? hm)
      cases hm' : messages'[i]? with
      | none =>
        rw [hm, hm', bind_some, hhs] at hi
        cases hi
      | some msg' =>
        obtain ⟨hhs', hpay'⟩ := h'.hashes msg' (mem_of_getElem? hm')
        rw [hm, hm', bind_some, bind_some, hhs, hhs'] at hi
        rw [map_some, map_some, hdg hpyl hpay' (some.inj hi)]
  have hd : ∀ ms : List Message, messagesToRequests fromCanonicalBytes ms =
      (ms.map Message.payload).filterMap fromCanonicalBytes := fun ms => (filterMap_map ..).symm
  rw [h.requests, h'.requests, hd, hd, hpay]

end

theorem BLSGlobalFrameValidator.validate_requests {Bundle : Type} (env : ValidatorEnv) (hdr : Option GlobalFrameHeader)
    (reqs reqs' : List Bundle) :
    validate env (some ⟨hdr, reqs⟩) = validate env (some ⟨hdr, reqs'⟩) := rfl

theorem BLSAppFrameValidator.validate_requests {Bundle : Type} (env : ValidatorEnv) (hdr : Option FrameHeader)
    (reqs reqs' : List Bundle) :
    validate env (some ⟨hdr, reqs⟩) = validate env (some ⟨hdr, reqs'⟩) := rfl

/-- A test that does not read the requests binds them to the header if and only if it accepts nothing. -/
theorem bound_iff_rejects {Header Bundle : Type} [Nonempty Bundle] (Accepts : FrameMessage Header Bundle → Prop)
    (hrd : ∀ hdr reqs reqs', Accepts ⟨hdr, reqs⟩ → Accepts ⟨hdr, reqs'⟩) :
    (∀ frame frame', Accepts frame → Accepts frame' → frame.header = frame'.header → frame.requests = frame'.requests) ↔
      ∀ frame, ¬ Accepts frame := by
  constructor
  · rintro hbn ⟨hdr, reqs⟩ hacc
    obtain ⟨bundle⟩ := ‹Nonempty Bundle›
    have h := hbn ⟨hdr, reqs⟩ ⟨hdr, bundle :: reqs⟩ hacc (hrd _ _ _ hacc) rfl
    exact absurd (congrArg length h) (by simp)
  · intro hr frame frame' hacc
    exact absurd hacc (hr frame)

def sampleMessage : Message := ⟨some [5], [5]⟩

def Digest.ones : Digest 64 := ⟨fun _ => List.replicate 64 1, fun _ => List.length_replicate⟩

def builtFrame : FrameMessage FrameHeader Bytes where
  header := some { sampleHeader (List.replicate 585 7) [1] with requestsRoot := List.replicate 64 1 }
  requests := [[5]]

theorem builtFrame_built : Built Digest.ones InclusionProver.transparent some id {(requestItem 0 [5]).preimage} ∅ {[5]}
    builtFrame { sampleHeader (replicate 585 7) [1] with requestsRoot := replicate 64 1 } [sampleMessage] where
  header_eq := rfl
  root := by decide +kernel
  requests := rfl
  hashes := by
    rintro msg hm
    cases mem_singleton.mp hm
    exact ⟨rfl, rfl⟩
  length_le := by decide
  within := Set.mem_singleton _

end Quilibrium
