import Quilibrium.Channel.DoubleRatchet
import Quilibrium.Theorems.Serialize

/-! Delivery through the double ratchet. One party is ahead: it has started a sending chain that the other one has not
    seen. -/

namespace Quilibrium
open Function Except List Option

variable {P : Primitives}

/-- Keys commute and are encoded, ciphertexts open under their own key only, and key derivation is injective. -/
structure Primitives.Laws (P : Primitives) : Prop where
  mul_comm : ∀ a b, P.mul (P.mulByGenerator a) b = P.mul (P.mulByGenerator b) a
  length_compress : ∀ x, (P.compress x).length = 57
  decompress_compress : ∀ x, P.decompress (P.compress x) = some x
  open_seal : ∀ k iv a m, P.aesOpen k iv a (P.aesSeal k iv a m) = some m
  open_other : ∀ {k k' iv iv' a a' m}, k ≠ k' → P.aesOpen k' iv' a' (P.aesSeal k iv a m) = none
  root_injective : ∀ {k k' x x'}, (P.hkdf k x).1 = (P.hkdf k' x').1 → k = k'
  header_injective : ∀ {k k' x x'}, (P.hkdf k x).2.2 = (P.hkdf k' x').2.2 → k = k'

/-! ### Chains and their messages -/

structure Chain (P : Primitives) where
  header : P.Key
  start : P.Key
  point : P.Point
  previous : Nat

def chainKey (start : P.Key) : Nat → P.Key
  | 0 => start
  | n + 1 => P.hmac (some (chainKey start n)) 1

def messageKeys (start : P.Key) (n : Nat) : P.Key × P.Key :=
  (P.hmac (some (chainKey start n)) 2, P.hmac (some (chainKey start n)) 3)

structure Sent (P : Primitives) where
  chain : Chain P
  number : Nat
  draws : Draws
  text : Bytes

def Sent.header (m : Sent P) : Bytes := P.compress m.chain.point ++ uint32BE m.chain.previous ++ uint32BE m.number

def Sent.envelope (m : Sent P) : P2PChannelEnvelope :=
  P.encryptEnvelope m.chain.header (messageKeys m.chain.start m.number).1 (messageKeys m.chain.start m.number).2 m.draws
    m.header m.text

structure Sent.Fits (m : Sent P) : Prop where
  headerIv : m.draws.headerIv.length = 12
  bodyIv : m.draws.bodyIv.length = 12
  previous : m.chain.previous + 100 < 2 ^ 32
  number : m.number + 101 < 2 ^ 32

namespace DoubleRatchetParticipant

variable {p q : DoubleRatchetParticipant P} {m : Sent P} {range : List (Option P.Key)} {drawn : P.Scalar}

section
variable (hP : P.Laws)
include hP

section
variable (hm : m.Fits)
include hm

theorem decrypt_header (key : Option P.Key) :
    P.decrypt m.envelope.messageHeader key none = .ok (if key = some m.chain.header then some m.header else none) := by
  cases key with
  | none => rfl
  | some key =>
    simp only [Primitives.decrypt, Sent.envelope, Primitives.encryptEnvelope, hm.headerIv, ne_eq, not_true_eq_false, if_false,
      none_or, map_some, some.injEq]
    split_ifs with hkey
    · rw [hkey, hP.open_seal]
    · rw [hP.open_other fun heq => hkey heq.symm]

theorem decryptHeader_eq (key : Option P.Key) :
    p.decryptHeader m.envelope.messageHeader key = .ok (if key = some m.chain.header then some (m.header, false)
      else if key = p.currentReceivingHeaderKey ∧ p.nextReceivingHeaderKey = m.chain.header then some (m.header, true)
      else none) := by
  rw [decryptHeader, decrypt_header hP hm, ok_bind]
  by_cases ho : key = some m.chain.header
  · rw [if_pos ho, if_pos ho]
    rfl
  rw [if_neg ho, if_neg ho]
  by_cases hc : key = p.currentReceivingHeaderKey
  · rw [if_pos hc, decrypt_header hP hm, ok_bind]
    simp only [hc, true_and, some.injEq]
    split_ifs <;> rfl
  · rw [if_neg hc, if_neg fun h => hc h.1]
    rfl

theorem decodeHeader_eq : decodeHeader m.header = .ok (some (m.chain.point, m.chain.previous, m.number)) := by
  have hl : (P.compress m.chain.point).length = 57 := hP.length_compress _
  have hfr : ∀ n, (uint32BE n).length = 4 := fun _ => rfl
  have hpre : m.chain.previous < 2 ^ 32 := by have := hm.previous; omega
  have hnum : m.number < 2 ^ 32 := by have := hm.number; omega
  have htt : m.header.length = 65 := by
    rw [Sent.header, length_append, length_append, hl]
    rfl
  have htk : m.header.take 57 = P.compress m.chain.point := by
    rw [Sent.header, append_assoc, take_left' hl]
  have hdp : m.header.drop 57 = uint32BE m.chain.previous ++ uint32BE m.number := by
    rw [Sent.header, append_assoc, drop_left' hl]
  have hls : m.header.drop 61 = uint32BE m.number := by
    rw [show 61 = 57 + 4 from rfl, ← drop_drop, hdp, drop_left' (hfr _)]
  rw [decodeHeader, if_neg (by omega), htk, hP.decompress_compress]
  dsimp only
  rw [if_neg (by omega), hdp, hls, take_left' (hfr _), take_of_length_le (hfr _).le,
    natOfBE_uint32BE hpre, natOfBE_uint32BE hnum]

theorem decryptBody_eq :
    P.decryptBody m.envelope (messageKeys m.chain.start m.number).1 (messageKeys m.chain.start m.number).2 =
      .ok (some m.text) := by
  simp [Primitives.decryptBody, Primitives.decrypt, Sent.envelope, Primitives.encryptEnvelope, hm.bodyIv, hP.open_seal]

/-! ### Stored keys -/

def Opens (p : DoubleRatchetParticipant P) (m : Sent P) (key : Option P.Key) : Prop :=
  key = some m.chain.header ∨ key = p.currentReceivingHeaderKey ∧ p.nextReceivingHeaderKey = m.chain.header

theorem trySkipped_cons {key : Option P.Key} (h : p.Opens m key → p.skippedKeys key m.number = none) :
    p.trySkippedMessageKeys m.envelope (key :: range) = p.trySkippedMessageKeys m.envelope range := by
  have ho : ∀ flag, p.Opens m key → (p.decryptHeader m.envelope.messageHeader key = .ok (some (m.header, flag))) →
      p.trySkippedMessageKeys m.envelope (key :: range) = p.trySkippedMessageKeys m.envelope range := by
    intro flag hop hh
    rw [trySkippedMessageKeys, hh, ok_bind]
    dsimp only
    rw [decodeHeader_eq hP hm, ok_bind]
    dsimp only
    rw [h hop]
  have hh := decryptHeader_eq (p := p) hP hm key
  split_ifs at hh with hown hnx
  · exact ho false (.inl hown) hh
  · exact ho true (.inr hnx) hh
  · rw [trySkippedMessageKeys, hh, ok_bind]

theorem trySkipped_none (h : ∀ key ∈ range, p.Opens m key → p.skippedKeys key m.number = none) :
    p.trySkippedMessageKeys m.envelope range = .ok none := by
  induction range with
  | nil => rfl
  | cons key range ih =>
    obtain ⟨hkey, hrn⟩ := forall_mem_cons.mp h
    rw [trySkipped_cons hP hm hkey, ih hrn]

theorem trySkipped_some (hmem : some m.chain.header ∈ range)
    (hky : p.skippedKeys (some m.chain.header) m.number = some (messageKeys m.chain.start m.number))
    (hnx : p.nextReceivingHeaderKey ≠ m.chain.header) :
    p.trySkippedMessageKeys m.envelope range = .ok (some (some m.text)) := by
  induction range with
  | nil => cases hmem
  | cons key range ih =>
    by_cases ho : key = some m.chain.header
    · rw [trySkippedMessageKeys, decryptHeader_eq hP hm, ok_bind, if_pos ho]
      dsimp only
      rw [decodeHeader_eq hP hm, ok_bind]
      dsimp only
      rw [ho, hky]
      dsimp only
      rw [decryptBody_eq hP hm]
      rfl
    · rw [trySkipped_cons hP hm fun hop => (hop.elim ho fun h => hnx h.2).elim]
      exact ih ((mem_cons.mp hmem).resolve_left fun heq => ho heq.symm)

end

end

/-! ### Skipping -/

theorem chainKey_congr {start start' : P.Key} {n : Nat} (h : chainKey start n = chainKey start' n) {k : Nat} (hk : n ≤ k) :
    chainKey start k = chainKey start' k := by
  induction k, hk using Nat.le_induction with
  | base => exact h
  | succ k _ ih => rw [chainKey, chainKey, ih]

def stored (p : DoubleRatchetParticipant P) (start : P.Key) (keys : List (Option P.Key)) (k : Nat) : DoubleRatchetParticipant P :=
  { p with
    receivingChainKey := some (chainKey start (p.currentReceivingChainLength + k))
    currentReceivingChainLength := p.currentReceivingChainLength + k
    skippedHeaderKeys := keys
    skippedKeys := fun key n =>
      if key = p.currentReceivingHeaderKey ∧ p.currentReceivingChainLength ≤ n ∧ n < p.currentReceivingChainLength + k then
        some (messageKeys start n) else p.skippedKeys key n }

theorem skipOne_iterate {start : P.Key} (k : Nat)
    (h : p.receivingChainKey = some (chainKey start p.currentReceivingChainLength)) :
    ∃ keys, (∀ key, key ∈ keys ↔ key ∈ p.skippedHeaderKeys ∨ 0 < k ∧ key = p.currentReceivingHeaderKey) ∧
      skipOne^[k] p = p.stored start keys k := by
  induction k with
  | zero =>
    refine ⟨p.skippedHeaderKeys, by simp, ?_⟩
    obtain ⟨⟩ := p
    dsimp only at h
    subst h
    simp only [iterate_zero, id_eq, stored, Nat.add_zero, mk.injEq, true_and]
    funext key n
    rw [if_neg (by omega)]
  | succ k ih =>
    obtain ⟨keys, hky, heq⟩ := ih
    refine ⟨keys.insert p.currentReceivingHeaderKey, fun key => ?_, ?_⟩
    · rw [mem_insert_iff, hky]
      grind
    · rw [iterate_succ_apply', heq, skipOne]
      simp only [Primitives.ratchetKeys, stored, mk.injEq, true_and]
      refine ⟨rfl, rfl, ?_⟩
      funext key n
      by_cases hkey : key = p.currentReceivingHeaderKey
      · subst hkey
        rw [update_self, update_apply]
        grind [messageKeys]
      · rw [update_of_ne hkey]
        simp [hkey, false_and]

/-! ### What a participant keeps in order -/

/-- A header key of a receiver: the one that it started with, or one that was derived from a root key. -/
def KnownKey (first : P.Key) (roots : List P.Key) (key : P.Key) : Prop :=
  key = first ∨ ∃ root ∈ roots, ∃ x, key = (P.hkdf root x).2.2

structure Receiving (p : DoubleRatchetParticipant P) (c : Chain P) : Prop where
  key : p.receivingChainKey = some (chainKey c.start p.currentReceivingChainLength)
  header : p.currentReceivingHeaderKey = some c.header

structure Tidy (p : DoubleRatchetParticipant P) (first : P.Key) (roots : List P.Key) : Prop where
  chain : p.receivingChainKey = none ∨ ∃ c, p.Receiving c
  domain : ∀ {key n}, p.skippedKeys key n ≠ none → key ∈ p.skippedHeaderKeys
  unused : ∀ {n}, p.currentReceivingChainLength ≤ n → p.skippedKeys p.currentReceivingHeaderKey n = none
  fresh : ∀ key ∈ p.currentReceivingHeaderKey :: p.skippedHeaderKeys, key ≠ some p.nextReceivingHeaderKey
  known : ∀ key, some key ∈ some p.nextReceivingHeaderKey :: p.currentReceivingHeaderKey :: p.skippedHeaderKeys →
    KnownKey first roots key
  length : p.currentReceivingChainLength + 100 < 2 ^ 32

/-- The key of the message is stored, or it is one of those to come on the receiving chain. -/
def Awaits (p : DoubleRatchetParticipant P) (limit : Nat) (m : Sent P) : Prop :=
  p.skippedKeys (some m.chain.header) m.number = some (messageKeys m.chain.start m.number) ∨
    p.Receiving m.chain ∧ p.currentReceivingChainLength ≤ m.number ∧ m.number < limit

variable {c : Chain P} {first : P.Key} {roots : List P.Key} {keys : List (Option P.Key)} {k limit : Nat}

theorem Awaits.header_ne (h : p.Awaits limit m) (ht : p.Tidy first roots) : p.nextReceivingHeaderKey ≠ m.chain.header := by
  intro heq
  obtain hs | ⟨hrc, -⟩ := h
  · have hmem : some m.chain.header ∈ p.skippedHeaderKeys := ht.domain (by rw [hs]; exact some_ne_none _)
    exact ht.fresh _ (mem_cons_of_mem _ hmem) (congrArg some heq.symm)
  · exact ht.fresh _ mem_cons_self (by rw [hrc.header, heq])

theorem Receiving.stored (hc : p.Receiving c) {c' : Chain P} (h : p.Receiving c') : (p.stored c.start keys k).Receiving c' :=
  ⟨congrArg some (chainKey_congr (some.inj (hc.key.symm.trans h.key)) (Nat.le_add_right _ _)), h.header⟩

theorem Awaits.stored (h : p.Awaits limit m) (ht : p.Tidy first roots) (hc : p.Receiving c) :
    (p.stored c.start keys k).Awaits limit m := by
  obtain hky | ⟨hrc, hl, hhg⟩ := h
  · refine .inl ?_
    rw [DoubleRatchetParticipant.stored]
    dsimp only
    rw [if_neg, hky]
    rintro ⟨hkey, hle, -⟩
    rw [hkey, ht.unused hle] at hky
    cases hky
  · by_cases hlt : m.number < p.currentReceivingChainLength + k
    · have hst := some.inj (hc.key.symm.trans hrc.key)
      refine .inl ?_
      rw [DoubleRatchetParticipant.stored]
      dsimp only
      rw [if_pos ⟨hrc.header.symm, hl, hlt⟩, messageKeys, messageKeys, chainKey_congr hst hl]
    · exact .inr ⟨hc.stored hrc, not_lt.mp hlt, hhg⟩

theorem Tidy.stored (ht : p.Tidy first roots) (hc : p.Receiving c)
    (hky : ∀ key, key ∈ keys ↔ key ∈ p.skippedHeaderKeys ∨ 0 < k ∧ key = p.currentReceivingHeaderKey)
    (hl : p.currentReceivingChainLength + k + 100 < 2 ^ 32) : (p.stored c.start keys k).Tidy first roots where
  chain := .inr ⟨c, hc.stored hc⟩
  domain {key n} hne := by
    rw [DoubleRatchetParticipant.stored] at hne ⊢
    dsimp only at hne ⊢
    rw [hky]
    split_ifs at hne with hcn
    · exact .inr ⟨by omega, hcn.1⟩
    · exact .inl (ht.domain hne)
  unused {n} hle := by
    rw [DoubleRatchetParticipant.stored] at hle ⊢
    dsimp only at hle ⊢
    rw [if_neg (by omega), ht.unused (by omega)]
  fresh key hmem := by
    refine ht.fresh key ?_
    obtain rfl | hmem := mem_cons.mp hmem
    · exact mem_cons_self
    · obtain hmem | ⟨-, rfl⟩ := (hky key).mp hmem
      · exact mem_cons_of_mem _ hmem
      · exact mem_cons_self
  known key hmem := by
    refine ht.known key ?_
    simp only [mem_cons, hky, DoubleRatchetParticipant.stored] at hmem ⊢
    tauto
  length := hl

def Kept (p q : DoubleRatchetParticipant P) : Prop :=
  q = { p with
    receivingChainKey := q.receivingChainKey
    currentReceivingChainLength := q.currentReceivingChainLength
    skippedHeaderKeys := q.skippedHeaderKeys
    skippedKeys := q.skippedKeys }

structure Caught (p q : DoubleRatchetParticipant P) (limit : Nat) (first : P.Key) (roots : List P.Key) : Prop where
  rest : Kept p q
  tidy : q.Tidy first roots
  awaits : ∀ {limit m}, p.Awaits limit m → q.Awaits limit m
  receiving : ∀ {c}, p.Receiving c → q.Receiving c ∧ q.currentReceivingChainLength = max p.currentReceivingChainLength limit

theorem Caught.stored (h : Caught p q limit first roots) (hm : p.Awaits limit m) :
    q.skippedKeys (some m.chain.header) m.number = some (messageKeys m.chain.start m.number) := by
  obtain hky | hrc := hm
  · exact (h.awaits (.inl hky : p.Awaits 0 m)).resolve_right fun hlt => Nat.not_lt_zero _ hlt.2.2
  · refine (h.awaits (.inr hrc)).resolve_right fun hle => ?_
    have := (h.receiving hrc.1).2
    omega

theorem skipMessageKeys_spec (ht : p.Tidy first roots) (hlm : limit ≤ p.currentReceivingChainLength + 100)
    (hbn : limit + 100 < 2 ^ 32) : ∃ q, p.skipMessageKeys limit = some q ∧ Caught p q limit first roots := by
  have hl := ht.length
  rw [skipMessageKeys, if_neg (by rw [Nat.mod_eq_of_lt hl]; omega)]
  obtain hnn | ⟨c, hc⟩ := ht.chain
  · rw [hnn, if_pos (by rfl)]
    refine ⟨p, rfl, rfl, ht, id, fun h => ?_⟩
    cases hnn.symm.trans h.key
  · rw [hc.key, if_neg (by simp)]
    obtain ⟨keys, hky, heq⟩ := skipOne_iterate (limit - p.currentReceivingChainLength) hc.key
    refine ⟨_, rfl, ?_⟩
    rw [heq]
    have hmax : p.currentReceivingChainLength + (limit - p.currentReceivingChainLength) =
        max p.currentReceivingChainLength limit := by omega
    exact ⟨rfl, ht.stored hc hky (by omega), fun h => h.stored ht hc, fun h => ⟨hc.stored h, hmax⟩⟩

/-! ### The next message -/

def passed (p : DoubleRatchetParticipant P) (start : P.Key) : DoubleRatchetParticipant P :=
  { p with
    receivingChainKey := some (chainKey start (p.currentReceivingChainLength + 1))
    currentReceivingChainLength := p.currentReceivingChainLength + 1 }

theorem decryptNext_eq (hP : P.Laws) (hm : m.Fits) (hrc : p.Receiving m.chain)
    (hnum : p.currentReceivingChainLength = m.number) :
    p.decryptNext m.envelope = .ok (p.passed m.chain.start, some m.text) := by
  have hbn := hm.number
  have hbd := decryptBody_eq hP hm
  rw [messageKeys, ← hnum, ← hrc.key] at hbd
  rw [decryptNext, Primitives.ratchetKeys]
  dsimp only
  rw [hbd, ok_bind]
  rw [passed, chainKey, ← hrc.key, Nat.mod_eq_of_lt (by omega)]
  rfl

theorem Awaits.passed (h : p.Awaits limit m) (hc : p.Receiving c)
    (hne : m.chain.header = c.header → m.number ≠ p.currentReceivingChainLength) : (p.passed c.start).Awaits limit m := by
  refine h.imp_right fun ⟨hrc, hl, hhg⟩ => ⟨⟨?_, hrc.header⟩, ?_, hhg⟩
  · exact congrArg some (chainKey_congr (some.inj (hc.key.symm.trans hrc.key)) (Nat.le_succ _))
  · exact lt_of_le_of_ne hl (hne (some.inj (hrc.header.symm.trans hc.header))).symm

theorem Tidy.passed (ht : p.Tidy first roots) (hc : p.Receiving c) (hl : p.currentReceivingChainLength + 101 < 2 ^ 32) :
    (p.passed c.start).Tidy first roots where
  chain := .inr ⟨c, rfl, hc.header⟩
  domain := ht.domain
  unused hle := ht.unused (Nat.le_of_succ_le hle)
  fresh := ht.fresh
  known := ht.known
  length := by rw [DoubleRatchetParticipant.passed]; omega

/-! ### A new receiving chain -/

theorem Tidy.ratchet (hP : P.Laws) (ht : p.Tidy first roots) (hrt : p.rootKey ∉ roots)
    (hfr : ∀ k x, first ≠ (P.hkdf k x).2.2) (drawn : P.Scalar) (point : P.Point) :
    (p.ratchetEphemeralKeys drawn point).Tidy first (p.rootKey :: roots) where
  chain := .inr ⟨⟨_, _, point, 0⟩, rfl, rfl⟩
  domain := ht.domain
  unused {n} _ := by
    by_contra hne
    exact ht.fresh _ (mem_cons_of_mem _ (ht.domain hne)) rfl
  fresh key hmem heq := by
    have hkn : KnownKey first roots (P.hkdf p.rootKey (P.mul point p.sendingEphemeralPrivateKey)).2.2 := by
      refine ht.known _ ?_
      rw [heq] at hmem
      obtain hmem | hmem := mem_cons.mp hmem
      · exact mem_cons.mpr (.inl hmem)
      · exact mem_cons_of_mem _ (mem_cons_of_mem _ hmem)
    obtain hkey | ⟨root, hmem, x, hkey⟩ := hkn
    · exact hfr _ _ hkey.symm
    · exact hrt (hP.header_injective hkey ▸ hmem)
  known key hmem := by
    obtain heq | hmem := mem_cons.mp hmem
    · exact .inr ⟨p.rootKey, mem_cons_self, _, some.inj heq⟩
    · have hm' : some key ∈ some p.nextReceivingHeaderKey :: p.currentReceivingHeaderKey :: p.skippedHeaderKeys := by
        obtain heq | hmem := mem_cons.mp hmem
        · exact mem_cons.mpr (.inl heq)
        · exact mem_cons_of_mem _ (mem_cons_of_mem _ hmem)
      exact (ht.known key hm').imp_right fun ⟨root, hrt, hx⟩ => ⟨root, mem_cons_of_mem _ hrt, hx⟩
  length := (by decide : 0 + 100 < 2 ^ 32)

/-! ### Decryption -/

section
variable (hP : P.Laws) (hm : m.Fits) (ht : p.Tidy first roots)
include hP hm ht

theorem ratchetDecrypt_stored (hrn : range.Perm p.skippedHeaderKeys)
    (hky : p.skippedKeys (some m.chain.header) m.number = some (messageKeys m.chain.start m.number)) :
    p.ratchetDecrypt range drawn m.envelope = .ok (p, some m.text) := by
  have hmem : some m.chain.header ∈ p.skippedHeaderKeys := ht.domain (by rw [hky]; exact some_ne_none _)
  have hawa : p.Awaits 0 m := .inl hky
  rw [ratchetDecrypt, trySkipped_some hP hm (hrn.mem_iff.mpr hmem) hky (hawa.header_ne ht)]
  rfl

theorem ratchetDecrypt_due (range : List (Option P.Key)) (drawn : P.Scalar) (hrc : p.Receiving m.chain)
    (hl : p.currentReceivingChainLength ≤ m.number) (hfew : m.number ≤ p.currentReceivingChainLength + 100) :
    ∃ q, Caught p q m.number first roots ∧
      p.ratchetDecrypt range drawn m.envelope = .ok (q.passed m.chain.start, some m.text) := by
  have hbn := hm.number
  have hawa : p.Awaits (m.number + 1) m := .inr ⟨hrc, hl, Nat.lt_succ_self _⟩
  have hnx := hawa.header_ne ht
  obtain ⟨q, hsk, hc⟩ := skipMessageKeys_spec ht hfew (by omega)
  obtain ⟨hrc', hlen⟩ := hc.receiving hrc
  refine ⟨q, hc, ?_⟩
  rw [ratchetDecrypt, trySkipped_none hP hm, ok_bind]
  · dsimp only
    rw [decryptHeader_eq hP hm, ok_bind, if_pos hrc.header]
    dsimp only
    rw [decodeHeader_eq hP hm, ok_bind]
    dsimp only [advance]
    rw [if_neg (by decide), ok_bind, hsk]
    exact decryptNext_eq hP hm hrc' (hlen.trans (Nat.max_eq_right hl))
  · rintro key - (rfl | ⟨-, heq⟩)
    · rw [← hrc.header]
      exact ht.unused hl
    · exact absurd heq hnx

theorem ratchetDecrypt_new (drawn : P.Scalar) (hrn : range.Perm p.skippedHeaderKeys) (hro : p.rootKey ∉ roots)
    (hfr : ∀ k x, first ≠ (P.hkdf k x).2.2) (hnx : p.nextReceivingHeaderKey = m.chain.header)
    (hst : (P.hkdf p.rootKey (P.mul m.chain.point p.sendingEphemeralPrivateKey)).2.1 = m.chain.start)
    (hu : p.skippedKeys p.currentReceivingHeaderKey m.number = none)
    (hpre : m.chain.previous ≤ p.currentReceivingChainLength + 100) (hfew : m.number ≤ 100) :
    ∃ q q', Caught p q m.chain.previous first roots ∧
      Caught (q.ratchetEphemeralKeys drawn m.chain.point) q' m.number first (p.rootKey :: roots) ∧
      q'.Receiving m.chain ∧ q'.currentReceivingChainLength = m.number ∧
      p.ratchetDecrypt range drawn m.envelope = .ok (q'.passed m.chain.start, some m.text) := by
  have hbn := hm.number
  have hcur : p.currentReceivingHeaderKey ≠ some m.chain.header := by
    rw [← hnx]
    exact ht.fresh _ mem_cons_self
  obtain ⟨q, hsk, hc⟩ := skipMessageKeys_spec ht hpre hm.previous
  have hrt : q.rootKey = p.rootKey := by rw [hc.rest]
  have htd := hc.tidy.ratchet hP (hrt ▸ hro) hfr drawn m.chain.point
  have hlm : m.number ≤ (q.ratchetEphemeralKeys drawn m.chain.point).currentReceivingChainLength + 100 := by
    omega
  obtain ⟨q', hsk', hc'⟩ := skipMessageKeys_spec htd hlm (by omega)
  have hrc : (q.ratchetEphemeralKeys drawn m.chain.point).Receiving m.chain := by
    constructor
    · rw [hc.rest]
      exact congrArg some hst
    · rw [hc.rest]
      exact congrArg some hnx
  obtain ⟨hrc', hl⟩ := hc'.receiving hrc
  have hnum : q'.currentReceivingChainLength = m.number := hl.trans (Nat.max_eq_right (Nat.zero_le _))
  refine ⟨q, q', hc, hrt ▸ hc', hrc', hnum, ?_⟩
  rw [ratchetDecrypt, trySkipped_none hP hm, ok_bind]
  · dsimp only
    rw [decryptHeader_eq hP hm, ok_bind, if_neg hcur, if_pos ⟨rfl, hnx⟩]
    dsimp only
    rw [decodeHeader_eq hP hm, ok_bind]
    dsimp only [advance]
    rw [if_pos rfl, hsk]
    dsimp only
    rw [ok_bind, hsk']
    exact decryptNext_eq hP hm hrc' hnum
  · rintro key hmem (rfl | ⟨rfl, -⟩)
    · exact absurd (congrArg some hnx.symm) (ht.fresh _ (mem_cons_of_mem _ (hrn.mem_iff.mp hmem)))
    · exact hu

structure Delivered (p q : DoubleRatchetParticipant P) (limit : Nat) (m : Sent P) (first : P.Key) (roots : List P.Key) :
    Prop where
  rest : Kept p q
  tidy : q.Tidy first roots
  awaits : ∀ {limit m'}, p.Awaits limit m' → (m'.chain.header = m.chain.header → m'.number ≠ m.number) → q.Awaits limit m'
  receiving : ∀ {c}, p.Receiving c → q.Receiving c ∧ q.currentReceivingChainLength ≤ max p.currentReceivingChainLength limit

theorem ratchetDecrypt_awaited (drawn : P.Scalar) (hrn : range.Perm p.skippedHeaderKeys) (h : p.Awaits limit m)
    (hfew : p.currentReceivingHeaderKey = some m.chain.header → m.number ≤ p.currentReceivingChainLength + 100) :
    ∃ q, Delivered p q limit m first roots ∧ p.ratchetDecrypt range drawn m.envelope = .ok (q, some m.text) := by
  obtain hky | ⟨hrc, hlow, hhg⟩ := h
  · exact ⟨p, ⟨rfl, ht, fun h _ => h, fun h => ⟨h, le_max_left _ _⟩⟩, ratchetDecrypt_stored hP hm ht hrn hky⟩
  · obtain ⟨q, hcau, heq⟩ := ratchetDecrypt_due hP hm ht range drawn hrc hlow (hfew hrc.header)
    obtain ⟨hrc', hl⟩ := hcau.receiving hrc
    rw [Nat.max_eq_right hlow] at hl
    have hnum := hm.number
    refine ⟨q.passed m.chain.start, ⟨?_, hcau.tidy.passed hrc' (by omega), fun h hne => ?_, fun h => ?_⟩, heq⟩
    · rw [Kept, passed, hcau.rest]
    · exact (hcau.awaits h).passed hrc' (hl ▸ hne)
    · have hc := (hcau.receiving h).1
      refine ⟨⟨congrArg some ?_, hc.header⟩, ?_⟩
      · exact chainKey_congr (some.inj (hrc'.key.symm.trans hc.key)) (Nat.le_succ _)
      · dsimp only [passed]
        omega

end

end DoubleRatchetParticipant

/-! ### Both parties -/

def Rooted (P : Primitives) (session : P.Key) : List P.Key → Prop
  | [] => False
  | [root] => root = session
  | root :: root' :: roots => (∃ x, root = (P.hkdf root' x).1) ∧ Rooted P session (root' :: roots)

theorem Rooted.derived_not_mem (hP : P.Laws) {session root : P.Key} (hs : ∀ k x, session ≠ (P.hkdf k x).1)
    {roots : List P.Key} (h : Rooted P session (root :: roots)) (hnd : (root :: roots).Nodup) (x : P.Point) :
    (P.hkdf root x).1 ∉ root :: roots := by
  -- a key of the list that is derived from the first one would be followed by it
  have haf : ∀ l : List P.Key, Rooted P session l → (P.hkdf root x).1 ∈ l → root ∈ l.tail := by
    intro l
    induction l with
    | nil => exact fun hl => hl.elim
    | cons key l ih =>
      cases l with
      | nil => exact fun hl hmem => absurd ((mem_singleton.mp hmem).trans hl).symm (hs _ _)
      | cons key' l =>
        rintro ⟨⟨x', hx'⟩, hl⟩ hmem
        obtain heq | hmem := mem_cons.mp hmem
        · rw [hP.root_injective (heq.trans hx')]
          exact mem_cons_self
        · exact mem_of_mem_tail (ih hl hmem)
  exact fun hmem => (nodup_cons.mp hnd).1 (haf _ h hmem)

/-- Messages on their way: they are well formed, and no two have the same place. -/
structure Underway (messages : List (Sent P)) : Prop where
  fits : ∀ m ∈ messages, m.Fits
  apart : messages.Pairwise fun m m' => m.chain.header = m'.chain.header → m.number ≠ m'.number

theorem Underway.remove {before after : List (Sent P)} {m : Sent P} (h : Underway (before ++ m :: after)) :
    (∀ m' ∈ before ++ after, m'.chain.header = m.chain.header → m'.number ≠ m.number) ∧ Underway (before ++ after) := by
  obtain ⟨hnew, ho⟩ := pairwise_cons.mp
    ((pairwise_middle fun hne heq => (hne heq.symm).symm).mp h.apart)
  exact ⟨fun m' hm' heq => (hnew m' hm' heq.symm).symm,
    fun m' hm' => h.fits m' (perm_middle.mem_iff.mpr (mem_cons_of_mem _ hm')), ho⟩

theorem Underway.add {msgs : List (Sent P)} {m : Sent P} (h : Underway msgs) (hm : m.Fits)
    (hnew : ∀ m' ∈ msgs, m'.chain.header = m.chain.header → m'.number < m.number) : Underway (msgs ++ [m]) where
  fits := forall_mem_append.mpr ⟨h.fits, forall_mem_singleton.mpr hm⟩
  apart := pairwise_append.mpr ⟨h.apart, pairwise_singleton _ _,
    fun m' hm' _ heq => mem_singleton.mp heq ▸ fun hh => (hnew m' hm' hh).ne⟩

namespace DoubleRatchetParticipant

variable {p q : DoubleRatchetParticipant P} {c d : Chain P}

structure Sending (p : DoubleRatchetParticipant P) (c : Chain P) : Prop where
  key : p.sendingChainKey = some (chainKey c.start p.currentSendingChainLength)
  header : p.currentSendingHeaderKey = c.header
  point : P.mulByGenerator p.sendingEphemeralPrivateKey = c.point
  previous : p.previousSendingChainLength = c.previous
  length : p.currentSendingChainLength + 100 < 2 ^ 32

def sentOn (p : DoubleRatchetParticipant P) (c : Chain P) : DoubleRatchetParticipant P :=
  { p with
    sendingChainKey := some (chainKey c.start (p.currentSendingChainLength + 1))
    currentSendingChainLength := p.currentSendingChainLength + 1 }

theorem Receiving.sentOn (h : p.Receiving d) : (p.sentOn c).Receiving d := ⟨h.key, h.header⟩

theorem Tidy.sentOn {first : P.Key} {roots : List P.Key} (h : p.Tidy first roots) : (p.sentOn c).Tidy first roots :=
  { h with chain := h.chain.imp_right fun ⟨d, hd⟩ => ⟨d, hd.sentOn⟩ }

theorem Sending.ratchetEncrypt (h : p.Sending c) (draws : Draws) (text : Bytes) :
    p.ratchetEncrypt draws text = (p.sentOn c, Sent.envelope ⟨c, p.currentSendingChainLength, draws, text⟩) := by
  have hl := h.length
  simp only [DoubleRatchetParticipant.ratchetEncrypt, Primitives.ratchetKeys, sentOn, Sent.envelope, messageKeys, chainKey,
    Sent.header, encodeHeader, h.key, h.header, h.point, h.previous]
  rw [Nat.mod_eq_of_lt (by omega)]

theorem Sending.kept (h : p.Sending c) (hkp : Kept p q) : q.Sending c := by
  rw [hkp]
  exact ⟨h.key, h.header, h.point, h.previous, h.length⟩

end DoubleRatchetParticipant

open DoubleRatchetParticipant

/-- The party `q` sends on the chain that `p` receives. -/
structure Answers (p q : DoubleRatchetParticipant P) (d : Chain P) : Prop where
  sending : q.Sending d
  previous : d.previous + 100 < 2 ^ 32
  receiving : p.Receiving d
  length : p.currentReceivingChainLength ≤ q.currentSendingChainLength

/-- The party `p` is ahead on the chain `c`. -/
structure Ahead (session first first' : P.Key) (c : Chain P) (p q : DoubleRatchetParticipant P) (toP toQ : List (Sent P))
    (roots : List P.Key) : Prop where
  sending : p.Sending c
  previous : c.previous + 100 < 2 ^ 32
  header : q.nextReceivingHeaderKey = c.header
  derived : P.hkdf q.rootKey (P.mul c.point q.sendingEphemeralPrivateKey) = (p.rootKey, c.start, p.nextSendingHeaderKey)
  back : p.nextReceivingHeaderKey = q.nextSendingHeaderKey
  answer : q.sendingChainKey = none ∧ q.currentSendingChainLength = 0 ∨ ∃ d, Answers p q d
  awaitedQ : ∀ m ∈ toQ, q.Awaits c.previous m ∨ m.chain = c ∧ m.number < p.currentSendingChainLength
  awaitedP : ∀ m ∈ toP, p.Awaits q.currentSendingChainLength m
  underwayP : Underway toP
  underwayQ : Underway toQ
  tidyP : p.Tidy first roots
  tidyQ : q.Tidy first' roots
  rooted : Rooted P session (p.rootKey :: q.rootKey :: roots)
  nodup : (p.rootKey :: q.rootKey :: roots).Nodup

namespace Ahead

variable {session first first' : P.Key} {c : Chain P} {p q : DoubleRatchetParticipant P} {toP toQ : List (Sent P)}
  {roots : List P.Key} (h : Ahead session first first' c p q toP toQ roots)
include h

theorem encrypt {draws : Draws} (hh : draws.headerIv.length = 12) (hbd : draws.bodyIv.length = 12) (text : Bytes)
    (hl : p.currentSendingChainLength + 101 < 2 ^ 32) :
    Ahead session first first' c (p.sentOn c) q toP (toQ ++ [⟨c, p.currentSendingChainLength, draws, text⟩]) roots :=
  { h with
    sending := ⟨rfl, h.sending.header, h.sending.point, h.sending.previous, by rw [sentOn]; omega⟩
    answer := h.answer.imp_right fun ⟨d, hd⟩ => ⟨d, { hd with receiving := hd.receiving.sentOn }⟩
    awaitedQ := by
      refine forall_mem_append.mpr ⟨fun m hm => ?_, forall_mem_singleton.mpr (.inr ⟨rfl, Nat.lt_succ_self _⟩)⟩
      exact (h.awaitedQ m hm).imp_right fun ⟨hc, hlt⟩ => ⟨hc, Nat.lt_succ_of_lt hlt⟩
    awaitedP := fun m hm => (h.awaitedP m hm).imp_right fun ⟨hrc, hle⟩ => ⟨hrc.sentOn, hle⟩
    underwayQ := by
      refine h.underwayQ.add ⟨hh, hbd, h.previous, hl⟩ fun m hm heq => ?_
      obtain hawa | ⟨-, hlt⟩ := h.awaitedQ m hm
      · exact absurd (h.header.trans heq.symm) (hawa.header_ne h.tidyQ)
      · exact hlt
    tidyP := h.tidyP.sentOn }

theorem reply {d : Chain P} (hd : Answers p q d) {draws : Draws} (hh : draws.headerIv.length = 12)
    (hbd : draws.bodyIv.length = 12) (text : Bytes) (hl : q.currentSendingChainLength + 101 < 2 ^ 32) :
    Ahead session first first' c p (q.sentOn d) (toP ++ [⟨d, q.currentSendingChainLength, draws, text⟩]) toQ roots :=
  { h with
    answer := .inr ⟨d, ⟨rfl, hd.sending.header, hd.sending.point, hd.sending.previous, by rw [sentOn]; omega⟩, hd.previous,
      hd.receiving, Nat.le_succ_of_le hd.length⟩
    awaitedQ := fun m hm => (h.awaitedQ m hm).imp_left (.imp_right fun ⟨hrc, hle⟩ => ⟨hrc.sentOn, hle⟩)
    awaitedP := by
      refine forall_mem_append.mpr ⟨fun m hm => ?_, forall_mem_singleton.mpr ?_⟩
      · exact (h.awaitedP m hm).imp_right fun ⟨hrc, hlow, hhg⟩ => ⟨hrc, hlow, Nat.lt_succ_of_lt hhg⟩
      · exact .inr ⟨hd.receiving, hd.length, Nat.lt_succ_self _⟩
    underwayP := by
      refine h.underwayP.add ⟨hh, hbd, hd.previous, hl⟩ fun m hm heq => ?_
      obtain hky | ⟨-, -, hlt⟩ := h.awaitedP m hm
      · refine lt_of_lt_of_le (not_le.mp fun hle => ?_) hd.length
        rw [heq, ← hd.receiving.header, h.tidyP.unused hle] at hky
        cases hky
      · exact hlt
    tidyQ := h.tidyQ.sentOn }

end Ahead

section
variable {session first first' : P.Key} {c : Chain P} {p q p' q' : DoubleRatchetParticipant P} {roots : List P.Key}
  {before after toP toQ : List (Sent P)} {m : Sent P}

theorem Ahead.received (h : Ahead session first first' c p q (before ++ m :: after) toQ roots)
    (hp : Delivered p p' q.currentSendingChainLength m first roots) :
    Ahead session first first' c p' q (before ++ after) toQ roots := by
  obtain ⟨har, hu⟩ := h.underwayP.remove
  refine { h with
    sending := h.sending.kept hp.rest
    derived := by rw [hp.rest]; exact h.derived
    back := by rw [hp.rest]; exact h.back
    answer := h.answer.imp_right fun ⟨d, hd⟩ => ⟨d, ?_⟩
    awaitedQ := by rw [hp.rest]; exact h.awaitedQ
    awaitedP := fun m' hm' =>
      hp.awaits (h.awaitedP m' (perm_middle.mem_iff.mpr (mem_cons_of_mem _ hm'))) (har m' hm')
    underwayP := hu
    tidyP := hp.tidy
    rooted := by rw [hp.rest]; exact h.rooted
    nodup := by rw [hp.rest]; exact h.nodup }
  obtain ⟨hrc, hle⟩ := hp.receiving hd.receiving
  exact { hd with receiving := hrc, length := hle.trans (Nat.max_le.mpr ⟨hd.length, le_rfl⟩) }

theorem Ahead.receivedBehind (h : Ahead session first first' c p q toP (before ++ m :: after) roots)
    (hq : Delivered q q' c.previous m first' roots) :
    Ahead session first first' c p q' toP (before ++ after) roots := by
  obtain ⟨har, hu⟩ := h.underwayQ.remove
  have hl : q'.currentSendingChainLength = q.currentSendingChainLength := by rw [hq.rest]
  have hkey : q'.sendingChainKey = q.sendingChainKey := by rw [hq.rest]
  refine { h with
    header := by rw [hq.rest]; exact h.header
    derived := by rw [hq.rest]; exact h.derived
    back := by rw [hq.rest]; exact h.back
    answer := ?_
    awaitedQ := fun m' hm' => ?_
    awaitedP := by rw [hq.rest]; exact h.awaitedP
    underwayQ := hu
    tidyQ := hq.tidy
    rooted := by rw [hq.rest]; exact h.rooted
    nodup := by rw [hq.rest]; exact h.nodup }
  · rw [hkey, hl]
    exact h.answer.imp_right fun ⟨d, hd⟩ => ⟨d, hd.sending.kept hq.rest, hd.previous, hd.receiving, hl ▸ hd.length⟩
  · refine (h.awaitedQ m' (perm_middle.mem_iff.mpr (mem_cons_of_mem _ hm'))).imp_left fun hawa => ?_
    exact hq.awaits hawa (har m' hm')

theorem DoubleRatchetParticipant.Tidy.mono (h : p.Tidy first roots) (root : P.Key) : p.Tidy first (root :: roots) :=
  { h with known := fun key hmem =>
      (h.known key hmem).imp_right fun ⟨root, hrt, hx⟩ => ⟨root, mem_cons_of_mem _ hrt, hx⟩ }

/-- The first message of the chain that makes the other party the one that is ahead. -/
theorem Ahead.overtaken (hP : P.Laws) (hs : ∀ k x, session ≠ (P.hkdf k x).1) {drawn : P.Scalar}
    (h : Ahead session first first' c p q toP (before ++ m :: after) roots) (hm : m.chain = c)
    (hnum : m.number < p.currentSendingChainLength) (hft : m.Fits) {q₁ q₂ : DoubleRatchetParticipant P}
    (hsk : Caught q q₁ c.previous first' roots)
    (hsk' : Caught (q₁.ratchetEphemeralKeys drawn c.point) q₂ m.number first' (q.rootKey :: roots))
    (hrc : q₂.Receiving c) (hl : q₂.currentReceivingChainLength = m.number) :
    ∃ c', Ahead session first' first c' (q₂.passed c.start) p (before ++ after) toP (q.rootKey :: roots) := by
  obtain ⟨har, hu⟩ := h.underwayQ.remove
  have hkp : Kept (q.ratchetEphemeralKeys drawn c.point) q₂ := by
    rw [Kept, hsk'.rest, hsk.rest]
    rfl
  have hrt : q₂.rootKey = (P.hkdf p.rootKey (P.mul c.point drawn)).1 := by
    rw [hkp, ratchetEphemeralKeys, h.derived]
  have hst : q₂.sendingChainKey = some (P.hkdf p.rootKey (P.mul c.point drawn)).2.1 := by
    rw [hkp, ratchetEphemeralKeys, h.derived]
  have hnx : q₂.nextSendingHeaderKey = (P.hkdf p.rootKey (P.mul c.point drawn)).2.2 := by
    rw [hkp, ratchetEphemeralKeys, h.derived]
  have hbc : q₂.nextReceivingHeaderKey = p.nextSendingHeaderKey := by rw [hkp, ratchetEphemeralKeys, h.derived]
  have hnew : (q₁.ratchetEphemeralKeys drawn c.point).Receiving c := by
    rw [hsk.rest]
    exact ⟨congrArg (fun keys : P.Key × P.Key × P.Key => some keys.2.1) h.derived, congrArg some h.header⟩
  have hlng : q.currentSendingChainLength + 100 < 2 ^ 32 := by
    obtain ⟨-, hzr⟩ | ⟨d, hd⟩ := h.answer
    · omega
    · exact hd.sending.length
  refine ⟨⟨q.nextSendingHeaderKey, (P.hkdf p.rootKey (P.mul c.point drawn)).2.1, P.mulByGenerator drawn,
    q.currentSendingChainLength⟩, ?_, hlng, h.back, ?_, hbc, .inr ⟨c, h.sending, h.previous, ⟨rfl, hrc.header⟩, ?_⟩,
    fun m' hm' => .inl (h.awaitedP m' hm'), fun m' hm' => ?_, hu, h.underwayP, ?_, h.tidyP.mono _, ⟨⟨_, hrt⟩, h.rooted⟩,
    nodup_cons.mpr ⟨?_, h.nodup⟩⟩
  · have hzr : q₂.currentSendingChainLength = 0 := by rw [hkp, ratchetEphemeralKeys]
    refine ⟨?_, by rw [passed, hkp, ratchetEphemeralKeys], by rw [passed, hkp, ratchetEphemeralKeys],
      by rw [passed, hkp, ratchetEphemeralKeys], ?_⟩
    · rw [passed, hst, hzr]
      rfl
    · rw [passed, hzr]
      decide
  · dsimp only
    rw [hP.mul_comm, h.sending.point, passed, hrt, hnx]
  · rw [passed, hl]
    exact hnum
  · refine Awaits.passed ?_ hrc fun heq => hl ▸ har m' hm' (heq.trans (congrArg Chain.header hm.symm))
    refine hsk'.awaits ?_
    obtain hawa | ⟨hch, hlt⟩ := h.awaitedQ m' (perm_middle.mem_iff.mpr (mem_cons_of_mem _ hm'))
    · exact .inl (hsk.stored hawa)
    · exact .inr ⟨hch ▸ hnew, Nat.zero_le _, hlt⟩
  · exact hsk'.tidy.passed hrc (by have := hft.number; omega)
  · rw [passed, hrt]
    exact h.rooted.derived_not_mem hP hs h.nodup _

end

/-! ### Runs -/

/-- An envelope on its way, with its text, header key and place in the chain. -/
structure Posted (P : Primitives) where
  headerKey : P.Key
  previous : Nat
  number : Nat
  text : Bytes
  envelope : P2PChannelEnvelope

structure RatchetSession (P : Primitives) where
  party : Bool → DoubleRatchetParticipant P
  pending : Bool → List (Posted P)

namespace RatchetSession

/-- Two participants with matching keys, the first of them as sender. -/
def new (session sendingHeaderKey nextReceivingHeaderKey : P.Key) (a b : P.Scalar) : RatchetSession P where
  party isSender := .new session sendingHeaderKey nextReceivingHeaderKey isSender (if isSender then a else b)
    (P.mulByGenerator (if isSender then b else a))
  pending _ := []

def encrypt (s : RatchetSession P) (i : Bool) (draws : Draws) (text : Bytes) : RatchetSession P :=
  let p := s.party i
  let (p', envelope) := p.ratchetEncrypt draws text
  { party := Function.update s.party i p'
    pending := Function.update s.pending (!i) (s.pending (!i) ++
      [⟨p.currentSendingHeaderKey, p.previousSendingChainLength, p.currentSendingChainLength, text, envelope⟩]) }

def SkipsFew (p : DoubleRatchetParticipant P) (m : Posted P) : Prop :=
  (p.currentReceivingHeaderKey = some m.headerKey → m.number ≤ p.currentReceivingChainLength + 100) ∧
    (p.nextReceivingHeaderKey = m.headerKey → m.previous ≤ p.currentReceivingChainLength + 100 ∧ m.number ≤ 100)

/-- If the message starts a new chain for the receiver, none with its number was skipped in the chain before. -/
def Unmistaken (p : DoubleRatchetParticipant P) (m : Posted P) : Prop :=
  p.nextReceivingHeaderKey = m.headerKey → p.skippedKeys p.currentReceivingHeaderKey m.number = none

/-- The sessions after encryptions and deliveries whose chains stay short of the range of their counters. -/
inductive Reachable (s₀ : RatchetSession P) : RatchetSession P → Prop
  | start : Reachable s₀ s₀
  | encrypt {s i draws} (text : Bytes) : Reachable s₀ s → (s.party i).sendingChainKey ≠ none →
      draws.headerIv.length = 12 → draws.bodyIv.length = 12 → (s.party i).currentSendingChainLength + 101 < 2 ^ 32 →
      Reachable s₀ (s.encrypt i draws text)
  | deliver {s i before m after range drawn p text} : Reachable s₀ s → s.pending i = before ++ m :: after →
      range.Perm (s.party i).skippedHeaderKeys → SkipsFew (s.party i) m → Unmistaken (s.party i) m →
      (s.party i).ratchetDecrypt range drawn m.envelope = .ok (p, text) →
      Reachable s₀ ⟨Function.update s.party i p, Function.update s.pending i (before ++ after)⟩

end RatchetSession

def Sent.posted (m : Sent P) : Posted P := ⟨m.chain.header, m.chain.previous, m.number, m.text, m.envelope⟩

/-- The keys that a session starts with were not derived. -/
structure Underived (session sendingHeaderKey nextReceivingHeaderKey : P.Key) : Prop where
  session : ∀ k x, session ≠ (P.hkdf k x).1
  header : ∀ isSender k x, cond isSender nextReceivingHeaderKey sendingHeaderKey ≠ (P.hkdf k x).2.2

section
variable {session shk nrhk : P.Key}

def RatchetSession.Ordered (session shk nrhk : P.Key) (s : RatchetSession P) : Prop :=
  ∃ i j c toP toQ roots, i ≠ j ∧ s.pending i = toP.map Sent.posted ∧ s.pending j = toQ.map Sent.posted ∧
    Ahead session (cond i nrhk shk) (cond j nrhk shk) c (s.party i) (s.party j) toP toQ roots

theorem RatchetSession.ordered_mk {s : RatchetSession P} {i j : Bool} {c : Chain P} {p q : DoubleRatchetParticipant P}
    {toP toQ : List (Sent P)} {roots : List P.Key}
    (h : Ahead session (cond i nrhk shk) (cond j nrhk shk) c p q toP toQ roots) (hij : i ≠ j) (hp : s.party i = p)
    (hq : s.party j = q) (htoP : s.pending i = toP.map Sent.posted) (htoQ : s.pending j = toQ.map Sent.posted) :
    s.Ordered session shk nrhk := by
  subst hp hq
  exact ⟨i, j, c, toP, toQ, roots, hij, htoP, htoQ, h⟩

theorem DoubleRatchetParticipant.tidy_new (isSender : Bool) (key : P.Scalar) (point : P.Point) :
    (new session shk nrhk isSender key point).Tidy (cond isSender nrhk shk) [] := by
  refine ⟨.inl rfl, fun hne => (hne rfl).elim, fun _ => rfl, fun key hmem heq => ?_, fun key hmem => .inl ?_,
    (by decide : 0 + 100 < 2 ^ 32)⟩
  · cases (mem_singleton.mp hmem).symm.trans heq
  · obtain heq | hmem := mem_cons.mp hmem
    · rw [some.inj heq]
      cases isSender <;> rfl
    · cases mem_singleton.mp hmem

theorem RatchetSession.ordered_new (hP : P.Laws) (hky : Underived session shk nrhk) (a b : P.Scalar) :
    (RatchetSession.new session shk nrhk a b).Ordered session shk nrhk := by
  have hzr : 0 + 100 < 2 ^ 32 := by decide
  refine ⟨true, false, ⟨shk, (P.hkdf session (P.mul (P.mulByGenerator b) a)).2.1, P.mulByGenerator a, 0⟩, [], [], [],
    Bool.noConfusion, rfl, rfl, ⟨rfl, rfl, rfl, rfl, hzr⟩, hzr, rfl, ?_, rfl, .inl ⟨rfl, rfl⟩,
    fun _ hm => (not_mem_nil hm).elim, fun _ hm => (not_mem_nil hm).elim,
    ⟨fun _ hm => (not_mem_nil hm).elim, .nil⟩, ⟨fun _ hm => (not_mem_nil hm).elim, .nil⟩, tidy_new _ _ _,
    tidy_new _ _ _, ⟨⟨_, rfl⟩, rfl⟩, ?_⟩
  · exact congrArg (P.hkdf session) (hP.mul_comm a b)
  · exact nodup_cons.mpr ⟨fun hmem => hky.session _ _ (mem_singleton.mp hmem).symm, nodup_singleton _⟩

variable {s : RatchetSession P} {k : Bool}

theorem RatchetSession.encrypt_eq {c : Chain P} (h : (s.party k).Sending c) (draws : Draws) (text : Bytes) :
    s.encrypt k draws text = ⟨update s.party k ((s.party k).sentOn c), update s.pending (!k)
      (s.pending (!k) ++ [Sent.posted ⟨c, (s.party k).currentSendingChainLength, draws, text⟩])⟩ := by
  rw [RatchetSession.encrypt, h.ratchetEncrypt, h.header, h.previous]
  rfl

theorem RatchetSession.Ordered.encrypt (h : s.Ordered session shk nrhk) {draws : Draws} (text : Bytes)
    (hch : (s.party k).sendingChainKey ≠ none) (hh : draws.headerIv.length = 12) (hbd : draws.bodyIv.length = 12)
    (hl : (s.party k).currentSendingChainLength + 101 < 2 ^ 32) : (s.encrypt k draws text).Ordered session shk nrhk := by
  obtain ⟨i, j, c, toP, toQ, roots, hij, hp, hq, h⟩ := h
  by_cases hk : k = i
  · subst hk
    obtain rfl : j = !k := Bool.eq_not_of_ne hij.symm
    rw [encrypt_eq h.sending]
    refine ordered_mk (h.encrypt hh hbd text hl) hij (update_self ..)
      (update_of_ne hij.symm ..) ((update_of_ne hij ..).trans hp) ((update_self ..).trans ?_)
    rw [hq, map_append, map_singleton]
  · obtain rfl : i = !k := Bool.eq_not_of_ne (Ne.symm hk)
    obtain rfl : j = k := by rw [Bool.eq_not_of_ne hij.symm, Bool.not_not]
    obtain ⟨d, hd⟩ := h.answer.resolve_left fun hnn => hch hnn.1
    rw [encrypt_eq hd.sending]
    refine ordered_mk (h.reply hd hh hbd text hl) hij (update_of_ne hij ..) (update_self ..)
      ((update_self ..).trans ?_) ((update_of_ne hij.symm ..).trans hq)
    rw [hp, map_append, map_singleton]

theorem RatchetSession.Ordered.deliver (hP : P.Laws) (hky : Underived session shk nrhk) (h : s.Ordered session shk nrhk)
    {before after : List (Posted P)} {m : Posted P} (hpn : s.pending k = before ++ m :: after) {range : List (Option P.Key)}
    (hrn : range.Perm (s.party k).skippedHeaderKeys) (hfew : SkipsFew (s.party k) m) (hun : Unmistaken (s.party k) m)
    (drawn : P.Scalar) : ∃ p, (s.party k).ratchetDecrypt range drawn m.envelope = .ok (p, some m.text) ∧
      RatchetSession.Ordered session shk nrhk
        ⟨update s.party k p, update s.pending k (before ++ after)⟩ := by
  obtain ⟨i, j, c, toP, toQ, roots, hij, hp, hq, h⟩ := h
  by_cases hk : k = i
  · subst hk
    obtain ⟨before, _, rfl, rfl, haf⟩ := map_eq_append_iff.mp (hp.symm.trans hpn)
    obtain ⟨m, after, rfl, rfl, rfl⟩ := map_eq_cons_iff.mp haf
    have hmem : m ∈ before ++ m :: after := mem_append_right _ mem_cons_self
    obtain ⟨p, hd, heq⟩ := ratchetDecrypt_awaited hP (h.underwayP.fits m hmem) h.tidyP drawn hrn
      (h.awaitedP m hmem) hfew.1
    exact ⟨p, heq, ordered_mk (h.received hd) hij (update_self ..) (update_of_ne hij.symm ..)
      ((update_self ..).trans map_append.symm) ((update_of_ne hij.symm ..).trans hq)⟩
  · obtain rfl : j = k := by rw [Bool.eq_not_of_ne hij.symm, Bool.eq_not_of_ne hk]
    obtain ⟨before, _, rfl, rfl, haf⟩ := map_eq_append_iff.mp (hq.symm.trans hpn)
    obtain ⟨m, after, rfl, rfl, rfl⟩ := map_eq_cons_iff.mp haf
    have hmem : m ∈ before ++ m :: after := mem_append_right _ mem_cons_self
    have hm := h.underwayQ.fits m hmem
    obtain hawa | ⟨hch, hnum⟩ := h.awaitedQ m hmem
    · obtain ⟨p, hd, heq⟩ := ratchetDecrypt_awaited hP hm h.tidyQ drawn hrn hawa hfew.1
      exact ⟨p, heq, ordered_mk (h.receivedBehind hd) hij (update_of_ne hij ..) (update_self ..)
        ((update_of_ne hij ..).trans hp) ((update_self ..).trans map_append.symm)⟩
    · have hh : (s.party j).nextReceivingHeaderKey = m.chain.header := by rw [h.header, hch]
      obtain ⟨-, hrt⟩ := nodup_cons.mp h.nodup
      obtain ⟨q₁, q₂, hsk, hsk', hrc, hl, heq⟩ := ratchetDecrypt_new hP hm h.tidyQ drawn hrn
        (nodup_cons.mp hrt).1 (hky.header j) hh (by rw [hch, h.derived]) (hun hh) (hfew.2 hh).1
        (hfew.2 hh).2
      rw [hch] at hsk hsk' hrc
      obtain ⟨c', h'⟩ := h.overtaken hP hky.session hch hnum hm hsk hsk' hrc hl
      rw [← hch] at h'
      exact ⟨_, heq, ordered_mk h' hij.symm (update_self ..) (update_of_ne hij ..)
        ((update_self ..).trans map_append.symm) ((update_of_ne hij ..).trans hp)⟩

theorem RatchetSession.Reachable.ordered (hP : P.Laws) (hky : Underived session shk nrhk) {a b : P.Scalar}
    (h : Reachable (.new session shk nrhk a b) s) : s.Ordered session shk nrhk := by
  induction h with
  | start => exact ordered_new hP hky a b
  | encrypt text _ hch hh hbd hl ih => exact ih.encrypt text hch hh hbd hl
  | deliver _ hpn hrn hfew hun heq ih =>
    obtain ⟨p, heq', ho⟩ := ih.deliver hP hky hpn hrn hfew hun _
    cases heq.symm.trans heq'
    exact ho

end

/-! ### Primitives that keep the laws -/

def marked : Bytes → Bytes
  | [] => [0]
  | x :: b => 1 :: x :: marked b

theorem marked_append_inj {a b x y : Bytes} (h : marked a ++ x = marked b ++ y) : a = b := by
  induction a generalizing b with
  | nil =>
    cases b with
    | nil => rfl
    | cons => cases (cons.inj h).1
  | cons c a ih =>
    cases b with
    | nil => cases (cons.inj h).1
    | cons d b =>
      obtain ⟨hc, htl⟩ := cons.inj (cons.inj h).2
      rw [hc, ih htl]

def spelled (key : Bytes) : Bytes ⊕ Bytes × Bytes → Bytes
  | .inl data => marked key ++ 0 :: marked data
  | .inr (aeadKey, ciphertext) => marked key ++ 1 :: (marked aeadKey ++ marked ciphertext)

theorem spelled_append_inj {a b x y : Bytes} {data data' : Bytes ⊕ Bytes × Bytes}
    (h : spelled a data ++ x = spelled b data' ++ y) : a = b := by
  obtain _ | _ := data <;> obtain _ | _ := data' <;> simp only [spelled, append_assoc] at h <;> exact marked_append_inj h

def dropSpelled (start c : Bytes) : Option Bytes := if start.isPrefixOf c then some (c.drop start.length) else none

theorem dropSpelled_append (start m : Bytes) : dropSpelled start (start ++ m) = some m := by
  rw [dropSpelled, if_pos ( isPrefixOf_iff_prefix.mpr (prefix_append ..)), drop_left]

theorem dropSpelled_eq_none {start c : Bytes} (h : ∀ t, start ++ t ≠ c) : dropSpelled start c = none :=
  if_neg fun hst => ( isPrefixOf_iff_prefix.mp hst).elim h

/-- Keys that spell out how they were derived, and ciphertexts that spell out their key and associated data. -/
def plainPrimitives : Primitives where
  Scalar := UInt8
  Point := UInt8
  Key := Bytes
  mulByGenerator := id
  mul x a := x + a
  compress x := x :: List.replicate 56 0
  decompress := List.head?
  hkdf k x := (0 :: x :: k, 1 :: x :: k, 2 :: x :: k)
  hmac k b := b :: k.getD []
  aesSeal k _ a m := spelled k a ++ m
  aesOpen k _ a c := dropSpelled (spelled k a) c

theorem plainPrimitives_laws : plainPrimitives.Laws where
  mul_comm := UInt8.add_comm
  length_compress _ := rfl
  decompress_compress _ := rfl
  open_seal k _ a := dropSpelled_append (spelled k a)
  open_other hne := dropSpelled_eq_none fun _ heq => hne (spelled_append_inj heq).symm
  root_injective h := (cons.inj (cons.inj h).2).2
  header_injective h := (cons.inj (cons.inj h).2).2

theorem plainPrimitives_underived : Underived (P := plainPrimitives) [9] [8] [7] where
  session _ _ h := by cases (cons.inj h).2
  header isSender _ _ h := by cases isSender <;> cases (cons.inj h).2

def plainDraws : Draws := ⟨List.replicate 12 0, [], List.replicate 12 0⟩

/-- The second message of the first chain arrives and is answered. The first message of the next chain then has the
    number of the one that was skipped, whose key does not open it. -/
def mistakenRun : Except Fault (List (Option Bytes)) := do
  let a := DoubleRatchetParticipant.new (P := plainPrimitives) [9] [8] [7] true (1 : UInt8) (2 : UInt8)
  let b := DoubleRatchetParticipant.new (P := plainPrimitives) [9] [8] [7] false (2 : UInt8) (1 : UInt8)
  let first := a.ratchetEncrypt plainDraws [5]
  let second := first.1.ratchetEncrypt plainDraws [6]
  let atB ← b.ratchetDecrypt [] (3 : UInt8) second.2
  let answer := atB.1.ratchetEncrypt plainDraws [7]
  let atA ← second.1.ratchetDecrypt [] (4 : UInt8) answer.2
  let next := atA.1.ratchetEncrypt plainDraws [8]
  let again ← answer.1.ratchetDecrypt answer.1.skippedHeaderKeys (5 : UInt8) next.2
  return [atB.2, atA.2, again.2]

end Quilibrium
