import Mathlib.Data.Int.ConditionallyCompleteOrder
import Mathlib.Data.Nat.Digits.Lemmas
import Quilibrium.Theorems.TreeCommit
import Quilibrium.Tries.Serialize

/-! The byte form of an in-memory tree can be read back, if every part is short enough for its reader. -/

namespace Quilibrium
open Radix List

/-! ### Numbers -/

theorem natOfBE_cons (x : UInt8) (b : Bytes) : natOfBE (x :: b) = x.toNat * 256 ^ b.length + natOfBE b := by
  have from_acc : ∀ (b : Bytes) (m : Nat), b.foldl (fun m x => m * 256 + x.toNat) m = m * 256 ^ b.length + natOfBE b := by
    intro b
    induction b with
    | nil => simp [natOfBE]
    | cons y b ih =>
      intro m
      rw [natOfBE, foldl_cons, foldl_cons, ih, ih, length_cons, Nat.pow_succ]
      ring
  rw [natOfBE, foldl_cons, from_acc, Nat.zero_mul, Nat.zero_add]

theorem length_uint64BE (n : Nat) : (uint64BE n).length = 8 := rfl

theorem natOfBE_uint64BE {n : Nat} (h : n < 2 ^ 64) : natOfBE (uint64BE n) = n := by
  simp only [natOfBE, uint64BE, uint32BE, cons_append, nil_append, foldl_cons, foldl_nil,
    UInt8.toNat_ofNat', Nat.shiftRight_eq_div_pow, Nat.div_div_eq_div_mul]
  omega

theorem natOfBE_uint32BE {n : Nat} (h : n < 2 ^ 32) : natOfBE (uint32BE n) = n := by
  simp only [natOfBE, uint32BE, foldl_cons, foldl_nil, UInt8.toNat_ofNat', Nat.shiftRight_eq_div_pow]
  omega

theorem natOfBE_eq_ofDigits (b : Bytes) : natOfBE b = Nat.ofDigits 256 (b.map UInt8.toNat).reverse := by
  induction b with
  | nil => rfl
  | cons x b ih =>
    rw [natOfBE_cons, map_cons, reverse_cons, Nat.ofDigits_append, ← ih, length_reverse, length_map,
      Nat.ofDigits_singleton]
    ring

theorem natOfBE_bigIntBytes (n : Nat) : natOfBE (bigIntBytes n) = n := by
  rw [natOfBE_eq_ofDigits, bigIntBytes, map_map, map_reverse, reverse_reverse]
  have hdig : (Nat.digits 256 n).map (UInt8.toNat ∘ UInt8.ofNat) = Nat.digits 256 n := by
    refine (map_congr_left fun d hd => ?_).trans (map_id _)
    exact UInt8.toNat_ofNat_of_lt' (Nat.digits_lt_base (by norm_num) hd)
  rw [hdig, Nat.ofDigits_digits]

/-! ### Readers -/

/-- The reader takes these bytes off the front of any buffer. -/
def Reader.Reads {α : Type} (r : Reader α) (b : Bytes) (a : α) : Prop := ∀ rest, r (b ++ rest) = .ok (a, rest)

section
variable {α β : Type} {r : Reader α} {b : Bytes} {a : α}

theorem reads_pure (a : α) : (pure a : Reader α).Reads [] a := fun _ => rfl

theorem Reader.Reads.bind (h : r.Reads b a) {f : α → Reader β} {b' : Bytes} {x : β} (hf : (f a).Reads b' x) :
    (r >>= f).Reads (b ++ b') x := fun rest => by
  have hr := h (b' ++ rest)
  rw [← append_assoc] at hr
  change (r (b ++ b' ++ rest)).bind (fun p => f p.1 p.2) = _
  rw [hr]
  exact hf rest

theorem Reader.Reads.map (h : r.Reads b a) (f : α → β) : (do let x ← r; return f x : Reader β).Reads b (f a) := by
  have hbn := h.bind (f := fun x => pure (f x)) (reads_pure (f a))
  rwa [append_nil] at hbn

theorem reads_exactly (b : Bytes) : (readExactly b.length).Reads b b := fun rest => by
  rw [readExactly, if_pos (by rw [length_append]; omega), take_left, drop_left]

theorem reads_uint {n : Nat} (h : b.length = n) : (readUint n).Reads b (natOfBE b) := h ▸ (reads_exactly b).map natOfBE

theorem reads_map {ι : Type} (f : ι → Bytes) (g : ι → α) (l : List ι) (h : ∀ i ∈ l, r.Reads (f i) (g i)) :
    (readN r l.length).Reads (l.flatMap f) (l.map g) := by
  induction l with
  | nil => exact reads_pure []
  | cons i l ih =>
    exact (h i mem_cons_self).bind ((ih fun j hj => h j (mem_cons_of_mem _ hj)).map (g i :: ·))

end

def maxArray : Nat := 2 ^ 30

theorem reads_bytes {d : Bytes} (h : d.length ≤ maxArray) : deserializeBytes.Reads (serializeBytes d) d := by
  have hl : natOfBE (uint64BE d.length) = d.length := natOfBE_uint64BE (h.trans_lt (by norm_num [maxArray]))
  refine (reads_uint (length_uint64BE d.length)).bind ?_
  rw [hl]
  by_cases hpos : 0 < d.length
  · rw [if_pos hpos, if_neg (by norm_num [maxArray] at h ⊢; exact h)]
    exact reads_exactly d
  · rw [if_neg hpos, length_eq_zero_iff.mp (Nat.eq_zero_of_not_pos hpos)]
    exact reads_pure []

theorem reads_bigInt {n : Nat} (h : (bigIntBytes n).length ≤ maxArray) : deserializeBigInt.Reads (serializeBigInt n) n := by
  have hm := (reads_bytes h).map natOfBE
  rwa [natOfBE_bigIntBytes] at hm

/-! ### Nodes as they are read -/

def signed (n m : Nat) : Int := if m < 2 ^ (8 * n - 1) then (m : Int) else (m : Int) - 2 ^ (8 * n)

theorem reads_int {n : Nat} {b : Bytes} (h : b.length = n) : (readInt n).Reads b (signed n (natOfBE b)) :=
  (reads_uint h).map (signed n)

def BranchNode.reread (n : BranchNode) : BranchNode where
  pfx := n.pfx
  commitment := n.commitment
  size := n.size.natAbs
  leafCount := signed 8 (n.leafCount % 2 ^ 64).toNat
  longestBranch := signed 4 (n.longestBranch % 2 ^ 32).toNat

def BranchNode.wire (n : BranchNode) : WireBranch where
  pfx := n.pfx.map fun v => (v.val : Int)
  commitment := n.commitment
  size := n.size.natAbs
  leafCount := n.reread.leafCount
  longestBranch := n.reread.longestBranch

def Node.reread (t : Node) : Node := t.map BranchNode.reread id

def Node.wire (t : Node) : WireNode := t.map BranchNode.wire id

structure LeafNode.Readable (n : LeafNode) : Prop where
  key : n.key.length ≤ maxArray
  value : n.value.length ≤ maxArray
  hashTarget : n.hashTarget.length ≤ maxArray
  commitment : n.commitment.length ≤ maxArray
  size : (bigIntBytes n.size).length ≤ maxArray

structure BranchNode.Readable (n : BranchNode) : Prop where
  pfx : n.pfx.length < 2 ^ 32
  commitment : n.commitment.length ≤ maxArray
  size : (bigIntBytes n.size.natAbs).length ≤ maxArray

/-- Every part of the tree is short enough to be read. -/
def Node.Readable : Node → Prop
  | .nil => True
  | .leaf n => n.Readable
  | .branch n children => n.Readable ∧ ∀ i, Node.Readable (children i)

theorem reads_leafNode {n : LeafNode} (h : n.Readable) : deserializeLeafNode.Reads (serializeLeafNode n) n :=
  (reads_bytes h.key).bind <| (reads_bytes h.value).bind <| (reads_bytes h.hashTarget).bind <|
    (reads_bytes h.commitment).bind <| (reads_bigInt h.size).map fun size =>
      (⟨⟨n.key, n.value, n.hashTarget, size⟩, n.commitment⟩ : LeafNode)

theorem signed_nibble (v : Nibble) : signed 4 (natOfBE (uint32BE v.val)) = v.val := by
  have hv := v.isLt
  rw [natOfBE_uint32BE (by omega), signed, if_pos (by omega)]

theorem reads_intSlice {pfx : List Nibble} (h : pfx.length < 2 ^ 32) :
    deserializeIntSlice.Reads (serializeIntSlice pfx) (pfx.map fun v => (v.val : Int)) := by
  refine (reads_uint (n := 4) rfl).bind ?_
  rw [natOfBE_uint32BE h]
  refine reads_map _ _ pfx fun v _ => ?_
  have hint := reads_int (n := 4) (b := uint32BE v.val) rfl
  rwa [signed_nibble] at hint

theorem reads_branchTail {n : BranchNode} (h : n.Readable) :
    (deserializeBranchTail (n.pfx.map fun v => (v.val : Int))).Reads (serializeBranchTail n) n.wire := by
  have hco : natOfBE (uint64BE (n.leafCount % 2 ^ 64).toNat) = (n.leafCount % 2 ^ 64).toNat := natOfBE_uint64BE (by omega)
  have hl : natOfBE (uint32BE (n.longestBranch % 2 ^ 32).toNat) = (n.longestBranch % 2 ^ 32).toNat :=
    natOfBE_uint32BE (by omega)
  have hcn := (reads_int (length_uint64BE (n.leafCount % 2 ^ 64).toNat)).bind
    (f := fun leafCount => do
      let longestBranch ← readInt 4
      return (⟨n.wire.pfx, n.commitment, n.size.natAbs, leafCount, longestBranch⟩ : WireBranch))
    ((reads_int (n := 4) (b := uint32BE (n.longestBranch % 2 ^ 32).toNat) rfl).map _)
  rw [hco, hl] at hcn
  exact (reads_bytes h.commitment).bind <| (reads_bigInt h.size).bind hcn

theorem length_serialize_child (n : BranchNode) (ch : Fin 64 → Node) (i : Fin 64) :
    (serializeNonLazyNode (ch i)).length < (serializeNonLazyNode (.branch n ch)).length := by
  have hch : (serializeNonLazyNode (ch i)).length ≤
      ((finRange 64).flatMap fun i => serializeNonLazyNode (ch i)).length := by
    have hm : serializeNonLazyNode (ch i) ∈ (finRange 64).map fun i => serializeNonLazyNode (ch i) :=
      mem_map.mpr ⟨i, mem_finRange i, rfl⟩
    exact (sublist_flatten_of_mem hm).length_le
  simp only [serializeNonLazyNode, length_cons, length_append]
  omega

theorem reads_node {t : Node} (h : t.Readable) {fuel : Nat} (hfl : (serializeNonLazyNode t).length < fuel) :
    (deserializeNonLazyNode fuel).Reads (serializeNonLazyNode t) t.wire := by
  induction t generalizing fuel with
  | nil =>
    obtain ⟨fuel, rfl⟩ := Nat.exists_eq_add_of_lt hfl
    exact fun _ => rfl
  | leaf n =>
    obtain ⟨fuel, rfl⟩ := Nat.exists_eq_add_of_lt hfl
    exact (reads_uint (n := 1) (b := [typeLeaf]) rfl).bind ((reads_leafNode h).map Trie.leaf)
  | branch n ch ih =>
    obtain ⟨fuel, rfl⟩ := Nat.exists_eq_add_of_lt hfl
    obtain ⟨hn, hch⟩ := h
    have hsl := reads_map _ (fun i => Node.wire (ch i)) (finRange 64) fun i _ =>
      ih i (hch i) ((length_serialize_child n ch i).trans_le (Nat.le_add_right _ fuel))
    have hd : (Trie.branch n.wire fun i => (((finRange 64).map fun i => Node.wire (ch i)).getD i.val .nil)) =
        Node.wire (.branch n ch) := by
      refine congrArg (Trie.branch n.wire) (funext fun i => ?_)
      simp [Node.wire]
    rw [← hd]
    exact (reads_uint (n := 1) (b := [typeBranch]) rfl).bind <| (reads_intSlice hn.pfx).bind <| hsl.bind <|
      (reads_branchTail hn).map _

theorem nibbles_map (pfx : List Nibble) : nibbles (pfx.map fun v => (v.val : Int)) = some pfx := by
  rw [nibbles, mapM_map]
  induction pfx with
  | nil => rfl
  | cons v pfx ih =>
    have hv : 0 ≤ (v.val : Int) ∧ (v.val : Int) < 64 := ⟨Int.natCast_nonneg _, by exact_mod_cast v.isLt⟩
    rw [mapM_cons, ih, Function.comp_apply, dif_pos hv]
    rfl

theorem toNode_wire (t : Node) : WireNode.toNode t.wire = some t.reread := by
  induction t with
  | nil => rfl
  | leaf n => rfl
  | branch n ch ih =>
    have hb : n.wire.toBranch = some n.reread := by
      rw [WireBranch.toBranch, BranchNode.wire, nibbles_map]
      rfl
    have hch : ∀ i, WireNode.toNode (Trie.map BranchNode.wire id (ch i)) = some (Node.reread (ch i)) := ih
    simp only [Node.wire, Trie.map, WireNode.toNode, hb, hch, Option.getD_some]
    rfl

theorem deserialize_serialize {t : VectorCommitmentTree} (h : t.root.Readable) :
    deserializeNonLazyTree (serializeNonLazyTree t) = .ok ⟨t.root.reread⟩ := by
  have hrd := reads_node h (Nat.lt_succ_self _) []
  rw [append_nil] at hrd
  rw [deserializeNonLazyTree, deserializeWireTree, serializeNonLazyTree, hrd]
  simp [toNode_wire]

/-! ### What can be read -/

def Reader.Yields {α : Type} (r : Reader α) (P : α → Prop) : Prop := ∀ buf a rest, r buf = .ok (a, rest) → P a

section
variable {α β : Type} {r : Reader α} {P : α → Prop} {Q : β → Prop}

theorem Reader.Yields.bind (h : r.Yields P) {f : α → Reader β} (hf : ∀ a, P a → (f a).Yields Q) : (r >>= f).Yields Q := by
  intro buf x rest hx
  change (r buf).bind (fun p => f p.1 p.2) = _ at hx
  cases hr : r buf with
  | error err =>
    rw [hr] at hx
    cases hx
  | ok p =>
    rw [hr] at hx
    exact hf p.1 (h _ _ _ hr) p.2 x rest hx

theorem yields_pure {a : α} (h : P a) : (pure a : Reader α).Yields P := fun _ _ _ hx => by
  cases hx
  exact h

theorem yields_throw (err : String) : (throw err : Reader α).Yields P := nofun

theorem yields_readN (h : r.Yields P) (count : Nat) :
    (readN r count).Yields fun as => as.length = count ∧ ∀ a ∈ as, P a := by
  induction count with
  | zero => exact yields_pure ⟨rfl, by simp⟩
  | succ count ih =>
    refine h.bind fun a ha => ih.bind fun as has => yields_pure ⟨by rw [length_cons, has.1], ?_⟩
    exact forall_mem_cons.mpr ⟨ha, has.2⟩

end

theorem yields_exactly (n : Nat) : (readExactly n).Yields fun b => b.length = n := by
  intro buf b rest h
  rw [readExactly] at h
  split at h
  · cases h
    rw [length_take]
    omega
  · split at h <;> cases h

theorem yields_uint (n : Nat) : (readUint n).Yields (· < 256 ^ n) :=
  (yields_exactly n).bind fun b hb => yields_pure (hb ▸ natOfBE_lt b)

theorem yields_int64 : (readInt 8).Yields (· ∈ Set.Ico (-2 ^ 63 : Int) (2 ^ 63)) :=
  (yields_uint 8).bind fun m hm => yields_pure (by split <;> exact ⟨by omega, by omega⟩)

theorem yields_int32 : (readInt 4).Yields (· ∈ Set.Ico (-2 ^ 31 : Int) (2 ^ 31)) :=
  (yields_uint 4).bind fun m hm => yields_pure (by split <;> exact ⟨by omega, by omega⟩)

theorem yields_bytes : deserializeBytes.Yields fun b => b.length ≤ maxArray := by
  refine (yields_uint 8).bind fun length _ => ?_
  split_ifs with hpos hln
  · exact yields_throw _
  · exact fun buf b rest h => (yields_exactly length buf b rest h).trans_le (not_lt.mp hln)
  · exact yields_pure (Nat.zero_le _)

theorem yields_bigInt : deserializeBigInt.Yields fun n => (bigIntBytes n).length ≤ maxArray := by
  refine yields_bytes.bind fun b hb => yields_pure ?_
  rw [bigIntBytes, length_map, length_reverse]
  exact ((Nat.digits_length_le_iff (by norm_num) _).mpr (natOfBE_lt b)).trans hb

/-- Every part of the tree can be told from its bytes. -/
def Node.Encodable : Node → Prop
  | .nil => True
  | .leaf n => n.Readable
  | .branch n children => (n.Readable ∧ 0 ≤ n.size ∧ n.leafCount ∈ Set.Ico (-2 ^ 63 : Int) (2 ^ 63) ∧
      n.longestBranch ∈ Set.Ico (-2 ^ 31 : Int) (2 ^ 31)) ∧ ∀ i, Node.Encodable (children i)

theorem Node.Encodable.readable {t : Node} (h : t.Encodable) : t.Readable := by
  induction t with
  | nil => trivial
  | leaf n => exact h
  | branch n ch ih => exact ⟨h.1.1, fun i => ih i (h.2 i)⟩

theorem Node.Encodable.reread {t : Node} (h : t.Encodable) : t.reread = t := by
  induction t with
  | nil => rfl
  | leaf n => rfl
  | branch n ch ih =>
    obtain ⟨-, hsz, hcn, hl⟩ := h.1
    have hn : n.reread = n := by
      simp only [Set.mem_Ico] at hcn hl
      simp only [BranchNode.reread, signed]
      congr 1
      · omega
      · split <;> omega
      · split <;> omega
    exact congrArg₂ Trie.branch hn (funext fun i => ih i (h.2 i))

theorem yields_leafNode : deserializeLeafNode.Yields LeafNode.Readable :=
  yields_bytes.bind fun _ hkey => yields_bytes.bind fun _ hvl => yields_bytes.bind fun _ ht =>
    yields_bytes.bind fun _ hc => yields_bigInt.bind fun _ hsz =>
      yields_pure ⟨hkey, hvl, ht, hc, hsz⟩

theorem yields_intSlice : deserializeIntSlice.Yields fun pfx => pfx.length < 2 ^ 32 :=
  (yields_uint 4).bind fun _ hl buf _ rest h => (yields_readN yields_int32 _ buf _ rest h).1.trans_lt hl

theorem nibbles_length {ints : List Int} {pfx : List Nibble} (h : nibbles ints = some pfx) : pfx.length = ints.length := by
  induction ints generalizing pfx with
  | nil =>
    cases h
    rfl
  | cons v ints ih =>
    rw [nibbles, mapM_cons] at h
    obtain ⟨x, -, h⟩ := Option.bind_eq_some_iff.mp h
    obtain ⟨xs, hxs, h⟩ := Option.bind_eq_some_iff.mp h
    cases h
    rw [length_cons, length_cons, ih hxs]

theorem yields_branchTail {ints : List Int} (h : ints.length < 2 ^ 32) :
    (deserializeBranchTail ints).Yields fun w => ∀ n, w.toBranch = some n → n.Readable ∧ 0 ≤ n.size ∧
      n.leafCount ∈ Set.Ico (-2 ^ 63 : Int) (2 ^ 63) ∧ n.longestBranch ∈ Set.Ico (-2 ^ 31 : Int) (2 ^ 31) := by
  refine yields_bytes.bind fun commitment hc => yields_bigInt.bind fun size hsz =>
    yields_int64.bind fun _ hcn => yields_int32.bind fun _ hl => yields_pure fun n hn => ?_
  obtain ⟨pfx, hpfx, hn⟩ := Option.bind_eq_some_iff.mp hn
  cases hn
  exact ⟨⟨nibbles_length hpfx ▸ h, hc, hsz⟩, Int.natCast_nonneg _, hcn, hl⟩

theorem yields_node (fuel : Nat) : (deserializeNonLazyNode fuel).Yields fun w => ∀ t, w.toNode = some t → t.Encodable := by
  induction fuel with
  | zero => exact yields_throw _
  | succ fuel ih =>
    refine (yields_uint 1).bind fun nodeType _ => ?_
    split_ifs
    · refine yields_pure fun t ht => ?_
      cases ht
      trivial
    · refine yields_leafNode.bind fun n hn => yields_pure fun t ht => ?_
      cases ht
      exact hn
    · refine yields_intSlice.bind fun pfx hpfx => (yields_readN ih 64).bind fun ch hch =>
        (yields_branchTail hpfx).bind fun w hw => yields_pure fun t ht => ?_
      simp only [WireNode.toNode] at ht
      split at ht
      next => cases ht
      next b hb =>
        split_ifs at ht with hall
        cases ht
        refine ⟨hw b hb, fun i => ?_⟩
        obtain ⟨c, hc⟩ := Option.isSome_iff_exists.mp (all_eq_true.mp hall i (mem_finRange i))
        have hi : i.val < ch.length := i.isLt.trans_eq hch.1.symm
        simp only [hc, Option.getD_some]
        refine hch.2 _ ?_ c hc
        rw [getD_eq_getElem?_getD, getElem?_eq_getElem hi, Option.getD_some]
        exact getElem_mem hi
    · exact yields_throw _

theorem encodable_of_deserialize {data : Bytes} {t : VectorCommitmentTree} (h : deserializeNonLazyTree data = .ok t) :
    t.root.Encodable := by
  rw [deserializeNonLazyTree, deserializeWireTree] at h
  cases hrd : deserializeNonLazyNode (data.length + 1) data with
  | error err =>
    rw [hrd] at h
    cases h
  | ok p =>
    simp only [hrd] at h
    split at h
    next root hrt =>
      cases h
      exact yields_node _ _ p.1 p.2 hrd root hrt
    next => cases h

end Quilibrium
