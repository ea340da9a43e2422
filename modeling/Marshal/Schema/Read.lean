import Marshal.Json.Read
import Marshal.Json.Record
import Marshal.Schema.Document

/-!
# Reading schemas

A schema is a JSON document with its definitions under `shapes`. A definition says what it is by its
`type`, which may stand anywhere among its members. Everything that is no alias is a record, except
that fields and collections must be objects: the first member `target`, `list` or `map` of such an
object says which type is meant. Of two definitions of one name the later one counts.
-/

namespace Marshal.Schema

/-! ## Types of fields -/

mutual

/-- The type that the first member `target`, `list` or `map` says. -/
def target? : List (String × Json) → Option Target
  | [] => none
  | (key, j) :: rest =>
    if key = "target" then j.toText?.map .named
    else if key = "list" then collection? .sequence j
    else if key = "map" then collection? .mapping j
    else target? rest

/-- A collection of what an object says. -/
def collection? (arrangement : Arrangement) : Json → Option Target
  | .object members => do
    let parts ← Json.known? ["nullableElements"] members
    let nullable ← Json.flagPart? parts "nullableElements"
    let element ← target? members
    return .collection arrangement element nullable
  | _ => none

end

/-! ## Fields -/

/-- The names of the traits of a field. -/
def fieldTraits : List String :=
  ["required", "nullable", "readonly", "jsonName", "xmlName", "xmlAttribute", "xmlFlattened",
    "xmlItemName", "additionalProperties"]

/-- The traits of a record; a record without any if there is none. -/
def traits? (names : List String) (least : Nat) (parts : Table String Json) :
    Option (Table String Json) :=
  match Table.find? parts "traits" with
  | none => some []
  | some j => j.parts? names least

/-- A field of an object type. -/
def field? (j : Json) : Option Field := do
  let members ← j.toMembers?
  let parts ← Json.known? ["name", "traits"] members
  let traits ← traits? fieldTraits 8 parts
  return {
    name := ← (← Table.find? parts "name").toText?
    target := ← target? members
    required := ← Json.flagPart? traits "required"
    nullable := ← Json.flagPart? traits "nullable"
    readOnly := ← Json.flagPart? traits "readonly"
    wire := ← Json.textPart? traits "jsonName"
    xmlName := ← Json.textPart? traits "xmlName"
    isAttribute := ← Json.flagPart? traits "xmlAttribute"
    isFlattened := ← Json.flagPart? traits "xmlFlattened"
    itemName := ← Json.textPart? traits "xmlItemName"
    carrier := ← Json.flagPart? traits "additionalProperties" }

/-! ## Definitions -/

/-- The names of the traits of an object type. -/
def objectTraits : List String :=
  ["base", "abstract", "discriminator", "discriminatorValue", "xmlName", "xmlNamespace"]

/-- An object type. -/
def object? (j : Json) : Option ObjectDefinition := do
  let parts ← j.parts? ["members", "traits"] 0
  let traits ← traits? objectTraits 6 parts
  return {
    fields := ← (← Json.itemsPart? parts "members").mapM field?
    base := ← Json.textPart? traits "base"
    isAbstract := ← Json.flagPart? traits "abstract"
    discriminator := ← Json.textPart? traits "discriminator"
    discriminatorValue := ← Json.textPart? traits "discriminatorValue"
    rootName := ← Json.textPart? traits "xmlName"
    rootNamespace := ← Json.textPart? traits "xmlNamespace" }

/-- A member of an enumeration. Its word is its name unless it has one of its own. -/
def member? (j : Json) : Option Member := do
  let parts ← j.parts? ["name", "value"] 2
  let name ← (← Table.find? parts "name").toText?
  let word ← Json.textPart? parts "value"
  return ⟨name, word.getD name⟩

/-- An enumeration. -/
def enumeration? (j : Json) : Option Enumeration := do
  let parts ← j.parts? ["members", "traits"] 1
  let traits ← traits? ["caseInsensitive", "open"] 0 parts
  let members ← (← (← Table.find? parts "members").toItems?).mapM member?
  let insensitive ← Json.flagPart? traits "caseInsensitive"
  return ⟨members, !insensitive, ← Json.flagPart? traits "open"⟩

/-- The definition that a type word and the rest of a definition give. -/
def tagged? (tag : String) (j : Json) : Option Definition :=
  if tag = "structure" then (object? j).map .object
  else if tag = "enum" then (enumeration? j).map .enumeration
  else do
    let p ← Primitive.ofName? tag
    let _ ← j.parts? [] 0
    return .alias p

/-- A definition: an object with its type word under `type`, or an array that begins with it. -/
def definition? : Json → Option Definition
  | .object members =>
    match members.filter fun m => m.1 = "type" with
    | [(_, .text tag)] => tagged? tag (.object (members.filter fun m => m.1 ≠ "type"))
    | _ => none
  | .array (.text tag :: items) => tagged? tag (.array items)
  | _ => none

/-- Reads a schema. -/
def Document.read? (text : String) : Option Document := do
  let j ← Json.record? ["shapes"] text.toList
  let parts ← j.parts? ["shapes"] 1
  let shapes ← (← Table.find? parts "shapes").toMembers?
  let definitions ← shapes.mapM fun m => (definition? m.2).map fun d => (m.1, d)
  return Table.ofList definitions

end Marshal.Schema
