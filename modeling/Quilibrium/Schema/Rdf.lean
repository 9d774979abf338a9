import Quilibrium.Tries.ProofTree

/-! # RDF schemas

`types/schema`: the encoding of field orders as keys, and `Get`, `Set` and `GetSchemaMap` of the `RDFMultiprover`; the check
`validateRDFSchemaUpdate`. The parser of documents is an interface. -/

namespace Quilibrium

/-- A Go map with string keys, in the order of an iteration over it. -/
structure GoMap (α : Type) where
  entries : List (String × α)
  nodup : (entries.map Prod.fst).Nodup

namespace GoMap
variable {α : Type}

def lookup (m : GoMap α) (key : String) : Option α := m.entries.lookup key

end GoMap

structure RDFTag where
  name : String
  extrinsic : String
  order : Int
  size : Option Int
  raw : String
  rdfType : String
  fieldSize : Nat
  deriving DecidableEq, Repr

abbrev SchemaMap := GoMap (GoMap RDFTag)

/-! ### Keys of fields -/

def maxOrderSingleByte : Int := 63
def maxOrderTwoByte : Int := 4093
def maxOrderThreeByte : Int := 262142

def orderToKey (order maxOrder : Int) : Except String Bytes :=
  if order < 0 then .error "order must be non-negative"
  else if maxOrder ≤ maxOrderSingleByte then .ok [UInt8.ofNat (order.toNat <<< 2)]
  else if maxOrder ≤ maxOrderTwoByte then
    let shifted := order.toNat <<< 4
    .ok [UInt8.ofNat (shifted >>> 8), UInt8.ofNat shifted]
  else if maxOrder ≤ maxOrderThreeByte then
    let shifted := order.toNat <<< 6
    .ok [UInt8.ofNat (shifted >>> 16), UInt8.ofNat (shifted >>> 8), UInt8.ofNat shifted]
  else
    .error ("order to key: order value " ++ toString maxOrder ++ " exceeds maximum allowed value of " ++
      toString maxOrderThreeByte)

def getMaxOrderForDocument (tagsByClass : SchemaMap) : Int :=
  tagsByClass.entries.foldl (fun maxOrder classTags =>
    classTags.2.entries.foldl (fun maxOrder tag => if maxOrder < tag.2.order then tag.2.order else maxOrder) maxOrder) (-1)

/-! ### The multiprover -/

/-- The method of an `RDFParser` that the multiprover calls. `TurtleRDFParser` refuses a field without an order and one
    with a negative order. -/
structure RDFParser where
  getTagsByClass : String → Except String SchemaMap
  order_nonneg : ∀ {document : String} {tagsByClass : SchemaMap}, getTagsByClass document = .ok tagsByClass →
    ∀ classTags ∈ tagsByClass.entries, ∀ tag ∈ classTags.2.entries, 0 ≤ tag.2.order

structure RDFMultiprover where
  parser : RDFParser
  typeHash : Bytes → String → Except String Bytes

def typeKey : Bytes := List.replicate 32 0xff

def fieldKey (tagsByClass : SchemaMap) (rdfClass field : String) : Except String Bytes :=
  match tagsByClass.lookup rdfClass with
  | none => .error ("class " ++ rdfClass ++ " not found in RDF schema")
  | some classTags =>
    match classTags.lookup field with
    | none => .error ("field " ++ field ++ " not found in class " ++ rdfClass)
    | some tag => orderToKey tag.order (getMaxOrderForDocument tagsByClass)

namespace RDFMultiprover
variable (m : RDFMultiprover)

def getOrParseDocument (document : String) : Except String SchemaMap :=
  (m.parser.getTagsByClass document).mapError ("get or parse document: " ++ ·)

def getSchemaMap (document : String) : Except String SchemaMap :=
  (m.getOrParseDocument document).mapError ("get schema map: " ++ ·)

def get (document rdfClass field : String) (tree : VectorCommitmentTree) : Except Fault (Except String Bytes) :=
  match m.getOrParseDocument document with
  | .error err => .ok (.error ("get: " ++ err))
  | .ok tagsByClass =>
    match fieldKey tagsByClass rdfClass field with
    | .error err => .ok (.error ("get: " ++ err))
    | .ok key => do
      let value ← tree.get key
      return value.mapError ("get: " ++ ·)

/-- The type of a tree: set with its first field, and compared with that of the class afterwards. -/
def setType (domain : Bytes) (rdfClass : String) (tree : VectorCommitmentTree) :
    Except Fault (VectorCommitmentTree × Option String) := do
  match ← tree.get typeKey, m.typeHash domain rdfClass with
  | _, .error err => return (tree, some ("set: " ++ err))
  | .error _, .ok typeBytes =>
    let (tree, err) ← tree.insert ⟨typeKey, typeBytes, [], 32⟩
    return (tree, err.map ("set: " ++ ·))
  | .ok typeHash, .ok typeBytes =>
    return (tree, if typeHash = typeBytes then none else some "set: invalid type for existing tree")

def set (document : String) (domain : Bytes) (rdfClass field : String) (value : Bytes) (tree : VectorCommitmentTree) :
    Except Fault (VectorCommitmentTree × Option String) :=
  match m.getOrParseDocument document with
  | .error err => .ok (tree, some ("set: " ++ err))
  | .ok tagsByClass => do
    match ← m.setType domain rdfClass tree with
    | (tree, some err) => return (tree, some err)
    | (tree, none) =>
      match fieldKey tagsByClass rdfClass field with
      | .error err => return (tree, some ("set: " ++ err))
      | .ok key =>
        let (tree, err) ← tree.insert ⟨key, value, [], value.length⟩
        return (tree, err.map ("set: " ++ ·))

end RDFMultiprover

/-! ### The update check -/

/-- A property of a tag that is printed with its old and new value. -/
def changedFrom (className fieldName property old new : String) : String :=
  "field '" ++ className ++ "." ++ fieldName ++ "' " ++ property ++ " changed from " ++ old ++ " to " ++ new

def quoted (s : String) : String := "'" ++ s ++ "'"

def compareHypergraphRDFTags (oldTag newTag : RDFTag) (className fieldName : String) : Option String :=
  let changed := changedFrom className fieldName
  if oldTag.name ≠ newTag.name then some (changed "Name" (quoted oldTag.name) (quoted newTag.name))
  else if oldTag.extrinsic ≠ newTag.extrinsic then
    some (changed "Extrinsic" (quoted oldTag.extrinsic) (quoted newTag.extrinsic))
  else if oldTag.order ≠ newTag.order then some (changed "Order" (toString oldTag.order) (toString newTag.order))
  else if oldTag.size.isNone ≠ newTag.size.isNone then
    some ("field '" ++ className ++ "." ++ fieldName ++ "' Size presence changed")
  else if oldTag.size ≠ newTag.size then
    some (changed "Size" (toString (oldTag.size.getD 0)) (toString (newTag.size.getD 0)))
  else if oldTag.raw ≠ newTag.raw then some (changed "Raw" (quoted oldTag.raw) (quoted newTag.raw))
  else if oldTag.rdfType ≠ newTag.rdfType then some (changed "RdfType" (quoted oldTag.rdfType) (quoted newTag.rdfType))
  else if oldTag.fieldSize ≠ newTag.fieldSize then
    some (changed "FieldSize" (toString oldTag.fieldSize) (toString newTag.fieldSize))
  else none

/-- The classes and fields of the old schema that the new one lacks or changes: the first error. -/
def compareSchemaMaps (oldTags newTags : SchemaMap) : Option String :=
  oldTags.entries.findSome? fun (className, oldFields) =>
    match newTags.lookup className with
    | none => some ("class '" ++ className ++ "' was removed")
    | some newFields =>
      oldFields.entries.findSome? fun (fieldName, oldTag) =>
        match newFields.lookup fieldName with
        | none => some ("field '" ++ fieldName ++ "' was removed from class '" ++ className ++ "'")
        | some newTag => compareHypergraphRDFTags oldTag newTag className fieldName

/-- `validateRDFSchemaUpdate`: the error. -/
def RDFMultiprover.validateRDFSchemaUpdate (m : RDFMultiprover) (oldSchema newSchema : String) : Option String :=
  match m.getSchemaMap oldSchema, m.getSchemaMap newSchema with
  | .error err, _ => some ("validate rdf schema update: parsing old schema: " ++ err)
  | .ok _, .error err => some ("validate rdf schema update: parsing new schema: " ++ err)
  | .ok oldTags, .ok newTags => (compareSchemaMaps oldTags newTags).map ("validate rdf schema update: " ++ ·)

end Quilibrium
