import Marshal.Bindings.Basic
import Marshal.Catalogue.Hierarchy
import Marshal.Text.Words

/-!
# Declaring the types of a catalogue

Every enumeration is declared, then every object type. The root of a hierarchy is declared as an
enumeration of its concrete types; a concrete root keeps its own fields in a record beside it. Other
abstract types are not declared, and a field of such a type holds any type of its hierarchy.
-/

namespace Marshal.Bindings

open Text

/-- The name of the record beside the enumeration of a concrete root. -/
def baseName (name : String) : String := name ++ "Base"

/-- The words that may not stand for a field as they are. -/
def reservedWords : List String :=
  ["type", "match", "return", "use", "ref", "mod", "fn", "struct", "enum", "impl", "self", "crate"]

/-- The field name of a property. -/
def fieldName (name : String) : String :=
  let s := Words.snake name
  if s ∈ reservedWords then "r#" ++ s else s

variable (c : Catalogue)

/-- The name under which a type is declared. -/
def typeName (h : Handle) : String := Words.pascal (c.nameOf h)

/-- Whether a type is the root of a hierarchy. -/
def isRoot (h : Handle) : Bool := c.forest.hierarchies.any fun y => y.root = h

/-- The type whose declaration stands for an object type. -/
def standIn (h : Handle) (o : ObjectType) : Handle :=
  match c.forest.hierarchyOf? h with
  | some y => if o.isAbstract || isRoot c h then y.root else h
  | none => h

/-- The type of a field that holds a type of the catalogue. -/
def namedType (inCollection : Bool) (h : Handle) : FieldType :=
  match c.get? h with
  | none => .unit
  | some ⟨_, .primitive p⟩ => .primitive p
  | some ⟨name, .enumeration _⟩ => .named (Words.pascal name)
  | some ⟨_, .object o⟩ =>
    let name := typeName c (standIn c h o)
    if inCollection then .named name else .boxed name

/-- The type of a field with a reference. -/
def fieldType (inCollection : Bool) : Reference → FieldType
  | .named h => namedType c inCollection h
  | .collection arrangement element nullable =>
    let inner := fieldType true element
    let inner := if nullable then .option inner else inner
    match arrangement with
    | .sequence => .sequence inner
    | .mapping => .mapping inner

/-- A property may be absent unless it is required, and may be null if it is nullable. -/
def propertyType (p : Property) : FieldType :=
  let inner := fieldType c false p.type
  match p.required, p.nullable with
  | true, false => inner
  | true, true => .option inner
  | false, false => .option inner
  | false, true => .option (.option inner)

/-- The record of the properties of an object type. -/
def recordOf (h : Handle) (name : String) : Declaration :=
  .record name (c.nameOf h) ((c.effectiveProperties h).map fun p =>
    ⟨fieldName p.name, p.wire, propertyType c p⟩)

/-- The enumeration of the concrete types of a hierarchy. -/
def variantsOf (h : Handle) : Declaration :=
  let name := typeName c h
  let property := ((c.forest.hierarchyOf? h).map Hierarchy.property).getD ""
  .variants name property ((c.variantsFor h).map fun v =>
    let variant := typeName c v.2
    ⟨variant, v.1, if v.2 = h then baseName name else variant⟩)

/-- The declaration of an enumeration. -/
def wordsOf (h : Handle) (e : Enumeration) : Declaration :=
  .words (typeName c h) (e.members.map fun m => ⟨Words.pascal m.name, m.wire⟩) e.isOpen

/-- The declarations of an object type. -/
def objectDeclarations (h : Handle) (o : ObjectType) : List Declaration :=
  let name := typeName c h
  if isRoot c h then
    if o.isAbstract then [variantsOf c h] else [variantsOf c h, recordOf c h (baseName name)]
  else if o.isAbstract then [] else [recordOf c h name]

/-- The declarations of a catalogue. -/
def declarations : List Declaration :=
  (c.enumerations.filterMap fun h => ((c.kind? h).bind Kind.enumeration?).map (wordsOf c h)) ++
    c.objects.flatMap fun h => ((c.object? h).map (objectDeclarations c h)).getD []

end Marshal.Bindings
