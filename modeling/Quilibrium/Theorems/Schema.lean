import Quilibrium.Theorems.Records

/-! Schema updates: data stays readable exactly when the update keeps the width of the keys. -/

namespace Quilibrium
open Radix Function Except List

/-! ### Keys of orders -/

/-- The number of bytes of the keys of a document with largest order `maxOrder`. Above the last bound fields have no
    keys. -/
def keyWidth (maxOrder : Int) : Nat :=
  if maxOrder ≤ maxOrderSingleByte then 1
  else if maxOrder ≤ maxOrderTwoByte then 2
  else if maxOrder ≤ maxOrderThreeByte then 3
  else 0

theorem keyWidth_le (maxOrder : Int) : keyWidth maxOrder ≤ 3 := by
  unfold keyWidth
  split_ifs <;> decide

theorem keyWidth_eq_one {maxOrder : Int} : keyWidth maxOrder = 1 ↔ maxOrder ≤ 63 := by
  grind [keyWidth, maxOrderSingleByte, maxOrderTwoByte, maxOrderThreeByte]

theorem keyWidth_eq_two {maxOrder : Int} : keyWidth maxOrder = 2 ↔ 63 < maxOrder ∧ maxOrder ≤ 4093 := by
  grind [keyWidth, maxOrderSingleByte, maxOrderTwoByte, maxOrderThreeByte]

theorem keyWidth_eq_zero {maxOrder : Int} : keyWidth maxOrder = 0 ↔ 262142 < maxOrder := by
  grind [keyWidth, maxOrderSingleByte, maxOrderTwoByte, maxOrderThreeByte]

theorem orderToKey_congr {maxOrder maxOrder' : Int} (h : keyWidth maxOrder = keyWidth maxOrder')
    (hpos : keyWidth maxOrder ≠ 0) (order : Int) : orderToKey order maxOrder = orderToKey order maxOrder' := by
  have h1 : maxOrder ≤ 63 ↔ maxOrder' ≤ 63 := by rw [← keyWidth_eq_one, h, keyWidth_eq_one]
  have h2 : 63 < maxOrder ∧ maxOrder ≤ 4093 ↔ 63 < maxOrder' ∧ maxOrder' ≤ 4093 := by
    rw [← keyWidth_eq_two, h, keyWidth_eq_two]
  have h3 : maxOrder ≤ 262142 := not_lt.mp (mt keyWidth_eq_zero.mpr hpos)
  have h3' : maxOrder' ≤ 262142 := not_lt.mp (mt keyWidth_eq_zero.mpr (h ▸ hpos))
  have h2' : maxOrder ≤ 4093 ↔ maxOrder' ≤ 4093 := by omega
  simp [orderToKey, maxOrderSingleByte, maxOrderTwoByte, maxOrderThreeByte, h1, h2', h3, h3']

theorem shifted_and (n : Nat) {s : Nat} (hs : s ≤ 8) : (UInt8.ofNat (n <<< s)).toNat &&& ((1 <<< s) - 1) = 0 := by
  rw [Nat.one_shiftLeft, Nat.and_two_pow_sub_one_eq_mod, UInt8.toNat_ofNat', Nat.shiftLeft_eq,
    Nat.mod_mod_of_dvd _ (Nat.pow_dvd_pow 2 hs), Nat.mul_mod_left]

theorem orderToKey_ok {order maxOrder : Int} {k : Bytes} (h : orderToKey order maxOrder = .ok k) :
    k.length = keyWidth maxOrder ∧ (getFullPath k)[keyWidth maxOrder]? = some (toNibble 0) := by
  unfold orderToKey at h
  unfold keyWidth
  split_ifs at h ⊢ with h0 h1 h2 h3
  · cases h
    refine ⟨rfl, ?_⟩
    have hl : _ &&& 3 = 0 := shifted_and order.toNat (s := 2) (by decide)
    change some (toNibble (((UInt8.ofNat (order.toNat <<< 2)).toNat &&& 3) <<< 4)) = some (toNibble 0)
    rw [hl]
    rfl
  · cases h
    refine ⟨rfl, ?_⟩
    have hl : _ &&& 15 = 0 := shifted_and order.toNat (s := 4) (by decide)
    change some (toNibble (((UInt8.ofNat (order.toNat <<< 4)).toNat &&& 15) <<< 2)) = some (toNibble 0)
    rw [hl]
    rfl
  · cases h
    refine ⟨rfl, ?_⟩
    have hl : _ &&& 63 = 0 := shifted_and order.toNat (s := 6) (by decide)
    change some (toNibble (((UInt8.ofNat (order.toNat <<< 6)).toNat &&& 63) >>> 0)) = some (toNibble 0)
    rw [hl]
    rfl

theorem exists_orderToKey {order maxOrder : Int} (hor : 0 ≤ order) (hpos : keyWidth maxOrder ≠ 0) :
    ∃ k, orderToKey order maxOrder = .ok k := by
  unfold keyWidth at hpos
  unfold orderToKey
  split_ifs at hpos ⊢ <;> first | exact ⟨_, rfl⟩ | omega

/-! ### The largest order -/

theorem foldl_max_le_iff {α : Type} (f : α → Int) (l : List α) (a b : Int) :
    l.foldl (fun m x => if m < f x then f x else m) a ≤ b ↔ a ≤ b ∧ ∀ x ∈ l, f x ≤ b := by
  induction l generalizing a with
  | nil => simp
  | cons x l ih =>
    rw [foldl_cons, ih, forall_mem_cons, ← and_assoc]
    refine and_congr_left fun _ => ?_
    split <;> omega

theorem getMaxOrderForDocument_le_iff {tags : SchemaMap} {b : Int} : getMaxOrderForDocument tags ≤ b ↔
    -1 ≤ b ∧ ∀ classTags ∈ tags.entries, ∀ tag ∈ classTags.2.entries, tag.2.order ≤ b := by
  unfold getMaxOrderForDocument
  generalize (-1 : Int) = a
  induction tags.entries generalizing a with
  | nil => simp
  | cons c l ih =>
    rw [foldl_cons, ih, foldl_max_le_iff (fun tag : String × RDFTag => tag.2.order), forall_mem_cons, and_assoc]

theorem GoMap.mem_of_lookup {α : Type} {m : GoMap α} {key : String} {a : α} (h : m.lookup key = some a) :
    (key, a) ∈ m.entries := by
  obtain ⟨before, after, hl, -⟩ := lookup_eq_some_iff.mp h
  rw [hl]
  simp

/-! ### The update check -/

theorem compareHypergraphRDFTags_eq_none {oldTag newTag : RDFTag} {className fieldName : String} :
    compareHypergraphRDFTags oldTag newTag className fieldName = none → oldTag = newTag := by
  intro h
  simp only [compareHypergraphRDFTags] at h
  split_ifs at h with hnm hext hor hpre hsz hr hrdf hfie
  obtain ⟨_, _, _, _, _, _, _⟩ := oldTag
  simp only [not_not] at hnm hext hor hsz hr hrdf hfie
  subst hnm hext hor hsz hr hrdf hfie
  rfl

theorem compareSchemaMaps_eq_none {oldTags newTags : SchemaMap} (h : compareSchemaMaps oldTags newTags = none)
    {className : String} {oldFields : GoMap RDFTag} (hc : (className, oldFields) ∈ oldTags.entries) :
    ∃ newFields, newTags.lookup className = some newFields ∧
      ∀ fieldName tag, (fieldName, tag) ∈ oldFields.entries → newFields.lookup fieldName = some tag := by
  have hcl := findSome?_eq_none_iff.mp h _ hc
  cases hnew : newTags.lookup className with
  | none => simp only [hnew, reduceCtorEq] at hcl
  | some newFields =>
    refine ⟨newFields, rfl, fun fieldName tag hf => ?_⟩
    simp only [hnew] at hcl
    have hfl := findSome?_eq_none_iff.mp hcl _ hf
    cases hnew' : newFields.lookup fieldName with
    | none => simp only [hnew', reduceCtorEq] at hfl
    | some newTag =>
      simp only [hnew'] at hfl
      rw [compareHypergraphRDFTags_eq_none hfl]

section
variable {m : RDFMultiprover} {S S' : String} {tags tags' : SchemaMap}

theorem RDFMultiprover.getSchemaMap_eq_ok : m.getSchemaMap S = .ok tags ↔ m.parser.getTagsByClass S = .ok tags := by
  unfold getSchemaMap getOrParseDocument
  cases m.parser.getTagsByClass S <;> simp [Except.mapError]

theorem RDFMultiprover.getOrParseDocument_eq (h : m.getSchemaMap S = .ok tags) : m.getOrParseDocument S = .ok tags := by
  rw [getOrParseDocument, getSchemaMap_eq_ok.mp h]
  rfl

theorem RDFMultiprover.validateRDFSchemaUpdate_eq_none (h : m.validateRDFSchemaUpdate S S' = none) :
    ∃ oldTags newTags, m.getSchemaMap S = .ok oldTags ∧ m.getSchemaMap S' = .ok newTags ∧
      compareSchemaMaps oldTags newTags = none := by
  unfold validateRDFSchemaUpdate at h
  cases ho : m.getSchemaMap S with
  | error err => simp only [ho, reduceCtorEq] at h
  | ok oldTags =>
    cases hnew : m.getSchemaMap S' with
    | error err => simp only [ho, hnew, reduceCtorEq] at h
    | ok newTags =>
      simp only [ho, hnew, Option.map_eq_none_iff] at h
      exact ⟨oldTags, newTags, rfl, rfl, h⟩

variable {rdfClass field : String}

theorem RDFMultiprover.order_bounds (h : m.getSchemaMap S = .ok tags) {fields : GoMap RDFTag}
    {tag : RDFTag} (hc : tags.lookup rdfClass = some fields) (hf : fields.lookup field = some tag) :
    0 ≤ tag.order ∧ tag.order ≤ getMaxOrderForDocument tags :=
  ⟨m.parser.order_nonneg (getSchemaMap_eq_ok.mp h) _ (GoMap.mem_of_lookup hc) _ (GoMap.mem_of_lookup hf),
    (getMaxOrderForDocument_le_iff.mp le_rfl).2 _ (GoMap.mem_of_lookup hc) _ (GoMap.mem_of_lookup hf)⟩

theorem getMaxOrderForDocument_mono (h : compareSchemaMaps tags tags' = none) :
    getMaxOrderForDocument tags ≤ getMaxOrderForDocument tags' := by
  have hle := getMaxOrderForDocument_le_iff.mp (le_refl (getMaxOrderForDocument tags'))
  refine getMaxOrderForDocument_le_iff.mpr ⟨hle.1, fun c hc t ht => ?_⟩
  obtain ⟨fields', hc', hf'⟩ := compareSchemaMaps_eq_none h hc
  exact hle.2 _ (GoMap.mem_of_lookup hc') _ (GoMap.mem_of_lookup (hf' t.1 t.2 ht))

/-! ### Trees under a schema -/

/-- The trees that calls of `Set` under a document write, from the empty tree on. Calls may fail. -/
inductive RDFMultiprover.Written (m : RDFMultiprover) (document : String) : VectorCommitmentTree → Prop
  | empty : Written m document .empty
  | set {tree tree' : VectorCommitmentTree} {domain value : Bytes} {rdfClass field : String} {err : Option String} :
    Written m document tree → m.set document domain rdfClass field value tree = .ok (tree', err) →
    Written m document tree'

theorem fieldKey_eq {fields : GoMap RDFTag} {tag : RDFTag}
    (hc : tags.lookup rdfClass = some fields) (hf : fields.lookup field = some tag) :
    fieldKey tags rdfClass field = orderToKey tag.order (getMaxOrderForDocument tags) := by
  simp [fieldKey, hc, hf]

section
variable (h : m.getSchemaMap S = .ok tags)
include h

theorem RDFMultiprover.get_eq {key : Bytes} (hkey : fieldKey tags rdfClass field = .ok key)
    (tree : VectorCommitmentTree) : m.get S rdfClass field tree = (tree.get key).map (·.mapError ("get: " ++ ·)) := by
  simp only [RDFMultiprover.get, getOrParseDocument_eq h, hkey]
  cases tree.get key <;> rfl

theorem RDFMultiprover.get_ok {v : Bytes} {tree : VectorCommitmentTree}
    (hget : m.get S rdfClass field tree = .ok (.ok v)) :
    ∃ key, fieldKey tags rdfClass field = .ok key ∧ tree.get key = .ok (.ok v) := by
  cases hkey : fieldKey tags rdfClass field with
  | error err =>
    simp only [RDFMultiprover.get, getOrParseDocument_eq h, hkey] at hget
    cases hget
  | ok key =>
    refine ⟨key, rfl, ?_⟩
    rw [get_eq h hkey] at hget
    generalize tree.get key = got at hget
    obtain fault | err | value := got
    · cases hget
    · cases hget
    · cases hget
      rfl

theorem RDFMultiprover.set_get {domain hash : Bytes} {key : Bytes} (hhs : m.typeHash domain rdfClass = .ok hash)
    (hkey : fieldKey tags rdfClass field = .ok key) {width : Nat} (hw : 0 < width) (hw3 : width ≤ 3)
    (hm : key ∈ rdfKeys width) (value : Bytes) :
    ∃ tree, m.set S domain rdfClass field value .empty = .ok (tree, none) ∧
      Record (rdfKeys width) (update (update (fun _ => none) typeKey (some hash)) key (some value))
        tree := by
  have hky := rdfKeys_antichain hw3
  have hr := record_empty (rdfKeys width)
  have hty : typeKey ∈ rdfKeys width := .inl rfl
  obtain ⟨t₁, hins₁, hr₁⟩ := hr.insert hky ⟨typeKey, hash, [], 32⟩ hty (rdfKeys_ne_nil hw hty)
  obtain ⟨t₂, hins₂, hr₂⟩ := hr₁.insert hky ⟨key, value, [], value.length⟩ hm (rdfKeys_ne_nil hw hm)
  refine ⟨t₂, ?_, hr₂⟩
  have hget := hr.get hky hty (rdfKeys_ne_nil hw hty)
  simp [RDFMultiprover.set, getOrParseDocument_eq h, setType, hget, hhs, hkey, Option.elim, hins₁, hins₂, pure, Except.pure]

end

/-- Stored data stays readable under an update if and only if the update keeps the width of the keys, or there are no
    fields to read. -/
theorem schema_update_keeps_data_iff (hhash : ∀ domain rdfClass, ∃ hash, m.typeHash domain rdfClass = .ok hash)
    (hold : m.getSchemaMap S = .ok tags) (hnew : m.getSchemaMap S' = .ok tags')
    (hupdate : m.validateRDFSchemaUpdate S S' = none) :
    (∀ tree, m.Written S tree → ∀ rdfClass fields field tag, tags.lookup rdfClass = some fields →
      fields.lookup field = some tag → ∀ value,
        m.get S' rdfClass field tree = .ok (.ok value) ↔ m.get S rdfClass field tree = .ok (.ok value)) ↔
    (∀ rdfClass fields field, tags.lookup rdfClass = some fields → fields.lookup field = none) ∨
      keyWidth (getMaxOrderForDocument tags) = keyWidth (getMaxOrderForDocument tags') := by
  obtain ⟨_, _, ho', hnew', hcom⟩ := RDFMultiprover.validateRDFSchemaUpdate_eq_none hupdate
  cases hold.symm.trans ho'
  cases hnew.symm.trans hnew'
  -- the update has the same tag at the class and the field
  have hkp : ∀ {rdfClass field fields tag}, tags.lookup rdfClass = some fields → fields.lookup field = some tag →
      fieldKey tags' rdfClass field = orderToKey tag.order (getMaxOrderForDocument tags') := fun hc hf => by
    obtain ⟨fields', hc', hf'⟩ := compareSchemaMaps_eq_none hcom (GoMap.mem_of_lookup hc)
    exact fieldKey_eq hc' (hf' _ _ (GoMap.mem_of_lookup hf))
  have hmn := getMaxOrderForDocument_mono hcom
  constructor
  · intro hsm
    by_contra hnot
    simp only [not_or, not_forall] at hnot
    obtain ⟨⟨rdfClass, fields, field, hc, hfl⟩, hwd⟩ := hnot
    obtain ⟨tag, hf⟩ := Option.ne_none_iff_exists'.mp hfl
    have hpos : keyWidth (getMaxOrderForDocument tags) ≠ 0 := fun h0 =>
      hwd (h0.trans (keyWidth_eq_zero.mpr (lt_of_lt_of_le (keyWidth_eq_zero.mp h0) hmn)).symm)
    obtain ⟨key, hkey⟩ := exists_orderToKey (RDFMultiprover.order_bounds hold hc hf).1 hpos
    have hm := orderToKey_ok hkey
    rw [← fieldKey_eq hc hf] at hkey
    obtain ⟨hash, hhash⟩ := hhash [] rdfClass
    obtain ⟨tree, hs, hr⟩ := RDFMultiprover.set_get hold hhash hkey (Nat.pos_of_ne_zero hpos) (keyWidth_le _)
      (.inr hm) [1]
    have hget : m.get S rdfClass field tree = .ok (.ok [1]) := by
      rw [RDFMultiprover.get_eq hold hkey, hr.get (rdfKeys_antichain (keyWidth_le _)) (.inr hm)
        (rdfKeys_ne_nil (Nat.pos_of_ne_zero hpos) (.inr hm)), update_self]
      rfl
    -- a key of the other width is not in the tree
    obtain ⟨key', hkey', hfn⟩ := RDFMultiprover.get_ok hnew ((hsm tree (.set .empty hs) _ _ _ _ hc hf [1]).mpr hget)
    obtain ⟨a, ha, rfl, -⟩ := VectorCommitmentTree.get_mem hfn
    have hl := (orderToKey_ok ((hkp hc hf).symm.trans hkey')).1
    obtain hty | ⟨hl', -⟩ := hr.mem a ha
    · have := keyWidth_le (getMaxOrderForDocument tags')
      rw [← hl, hty, typeKey, length_replicate] at this
      omega
    · exact hwd (hl'.symm.trans hl)
  · rintro (hnn | hwd) tree - rdfClass fields field tag hc hf value
    · rw [hnn _ _ _ hc] at hf
      cases hf
    · by_cases h0 : keyWidth (getMaxOrderForDocument tags) = 0
      · -- neither document has keys
        have hno : ∀ {document tags}, m.getSchemaMap document = .ok tags → keyWidth (getMaxOrderForDocument tags) = 0 →
            fieldKey tags rdfClass field = orderToKey tag.order (getMaxOrderForDocument tags) →
            m.get document rdfClass field tree ≠ .ok (.ok value) := fun hd h0 hkey hget => by
          obtain ⟨key, hok, hfn⟩ := RDFMultiprover.get_ok hd hget
          have hl := (orderToKey_ok (hkey.symm.trans hok)).1
          rw [h0, length_eq_zero_iff] at hl
          rw [hl] at hfn
          cases hfn
        exact iff_of_false (hno hnew (hwd ▸ h0) (hkp hc hf)) (hno hold h0 (fieldKey_eq hc hf))
      · obtain ⟨key, hkey⟩ := exists_orderToKey (RDFMultiprover.order_bounds hold hc hf).1 h0
        have hkey' := hkey
        rw [orderToKey_congr hwd h0, ← hkp hc hf] at hkey'
        rw [← fieldKey_eq hc hf] at hkey
        rw [RDFMultiprover.get_eq hold hkey, RDFMultiprover.get_eq hnew hkey']

end

/-! ### An update that widens the keys -/

namespace SchemaUpdate

def single {α : Type} (name : String) (a : α) : GoMap α := ⟨[(name, a)], List.nodup_singleton _⟩

def tag (order : Int) : RDFTag := ⟨"count", "", order, none, "count,order=" ++ toString order, "Uint", 8⟩

def before : SchemaMap := single "Entry" (single "count" (tag 0))

theorem names_nodup : ["Entry", "Extension"].Nodup := by decide

def extended (order : Int) : SchemaMap :=
  ⟨[("Entry", single "count" (tag 0)), ("Extension", single "count" (tag order))], names_nodup⟩

def getTagsByClass (document : String) : Except String SchemaMap :=
  if document = "before" then .ok before
  else if document = "extended" then .ok (extended 1)
  else if document = "widened" then .ok (extended 64)
  else .error "get tags by class"

theorem getTagsByClass_nonneg {document : String} {tags : SchemaMap} (h : getTagsByClass document = .ok tags) :
    ∀ classTags ∈ tags.entries, ∀ tag ∈ classTags.2.entries, 0 ≤ tag.2.order := by
  unfold getTagsByClass at h
  split_ifs at h
  all_goals
    cases h
    simp [before, extended, single, tag]

def sample : RDFMultiprover where
  parser := ⟨getTagsByClass, getTagsByClass_nonneg⟩
  typeHash _ _ := .ok (List.replicate 32 0)

end SchemaUpdate

open SchemaUpdate in
theorem schema_update_keeps_data_iff_sample :
    (∀ tree, sample.Written "before" tree → ∀ rdfClass fields field tag, before.lookup rdfClass = some fields →
      fields.lookup field = some tag → ∀ value, sample.get "extended" rdfClass field tree = .ok (.ok value) ↔
        sample.get "before" rdfClass field tree = .ok (.ok value)) ∧
    ¬∀ tree, sample.Written "before" tree → ∀ rdfClass fields field tag, before.lookup rdfClass = some fields →
      fields.lookup field = some tag → ∀ value, sample.get "widened" rdfClass field tree = .ok (.ok value) ↔
        sample.get "before" rdfClass field tree = .ok (.ok value) := by
  have hhs : ∀ domain rdfClass, ∃ hash, sample.typeHash domain rdfClass = .ok hash := fun _ _ => ⟨_, rfl⟩
  have hexd : sample.getSchemaMap "extended" = .ok (extended 1) := rfl
  have hw : sample.getSchemaMap "widened" = .ok (extended 64) := rfl
  refine ⟨(schema_update_keeps_data_iff hhs rfl hexd (by decide +kernel)).mpr (.inr (by decide +kernel)), fun hsm => ?_⟩
  obtain hnn | hwd := (schema_update_keeps_data_iff hhs rfl hw (by decide +kernel)).mp hsm
  · exact absurd (hnn "Entry" _ "count" rfl) (by decide +kernel)
  · exact absurd hwd (by decide +kernel)

open SchemaUpdate in
/-- The update is accepted, and the field that was written before it is no longer found. -/
theorem widening_update_hides_data : sample.validateRDFSchemaUpdate "before" "widened" = none ∧
    ∃ tree, sample.Written "before" tree ∧ sample.get "before" "Entry" "count" tree = .ok (.ok [7]) ∧
      sample.get "widened" "Entry" "count" tree = .ok (.error "get: key not found: 0x0000") := by
  have hs : sample.set "before" [] "Entry" "count" [7] .empty = .ok (_, none) := rfl
  exact ⟨by decide +kernel, _, .set .empty hs, rfl, rfl⟩

end Quilibrium
