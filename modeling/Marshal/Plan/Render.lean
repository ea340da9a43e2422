import Marshal.Json.Tree
import Marshal.Plan.Basic

/-!
# Model data as JSON

The JSON form of entities, hierarchies and plans. Fields are never left out: a missing value is
null. Tables keyed by handle have the handles' numbers as keys, in numeric order.
-/

namespace Marshal

open Json

/-- A handle is written as its number. -/
def Handle.toJson (h : Handle) : Json := .ofNat h.index

/-- A variant that carries data: an object with the variant's name as its only key. -/
def variantJson (name : String) (j : Json) : Json := .object [(name, j)]

/-! ## Entities -/

/-- A member of an enumeration. -/
def Member.toJson (m : Member) : Json :=
  .object [("name", .text m.name), ("wire_value", .text m.wire)]

/-- An enumeration, its two switches named by their settings. -/
def Enumeration.toJson (e : Enumeration) : Json :=
  .object [("members", .array (e.members.map Member.toJson)),
    ("config", .object
      [("case", .text (if e.caseSensitive then "sensitive" else "insensitive")),
       ("extensibility", .text (if e.isOpen then "open" else "closed"))])]

/-- The name of an arrangement. -/
def Arrangement.name : Arrangement → String
  | .sequence => "sequence"
  | .mapping => "mapping"

/-- The name of a placement. -/
def Placement.name : Placement → String
  | .element => "element"
  | .attribute => "attribute"

/-- A layout. -/
def Layout.toJson : Layout → Json
  | .wrapped item => variantJson "wrapped" (.object [("item_name", .text item)])
  | .flattened => .text "flattened"

/-- A reference to a type. -/
def Reference.toJson : Reference → Json
  | .named h => variantJson "named" h.toJson
  | .collection a element nullable =>
    variantJson "collection" (.object [("shape", .text a.name), ("element_type", element.toJson),
      ("elements_nullable", .bool nullable)])

/-- A property; what concerns markup alone is an object of its own. -/
def Property.toJson (p : Property) : Json :=
  .object [("name", .text p.name), ("wire_name", .text p.wire), ("value_type", p.type.toJson),
    ("required", .bool p.required), ("nullable", .bool p.nullable),
    ("settable_after_construction", .bool p.settable), ("additional_properties", .bool p.carrier),
    ("xml", .object [("name", .ofText? p.xmlName), ("placement", .text p.placement.name),
      ("container", p.layout.toJson)])]

/-- An object type; what concerns markup alone is an object of its own. -/
def ObjectType.toJson (o : ObjectType) : Json :=
  .object [("base", match o.base with | some h => h.toJson | none => .null),
    ("properties", .array (o.properties.map Property.toJson)),
    ("discriminator_property", .ofText? o.discriminator),
    ("discriminator_value", .ofText? o.discriminatorValue), ("is_abstract", .bool o.isAbstract),
    ("xml", .object [("root_name", .ofText? o.rootName),
      ("namespace", .ofText? o.rootNamespace)])]

/-- A kind of type. -/
def Kind.toJson : Kind → Json
  | .primitive p => variantJson "primitive" (.text p.name)
  | .enumeration e => variantJson "enum" e.toJson
  | .object o => variantJson "object" o.toJson

/-- A named type. -/
def Entity.toJson (e : Entity) : Json :=
  .object [("name", .text e.name), ("kind", e.kind.toJson)]

/-- A hierarchy. -/
def Hierarchy.toJson (y : Hierarchy) : Json :=
  .object [("root", y.root.toJson), ("discriminator_property", .text y.property),
    ("variants", .ofTable Handle.toJson y.variants)]

/-! ## Plans -/

/-- A shape, told apart from the others by `shape`. -/
def Shape.toJson : Shape → Json
  | .primitive p => .object [("shape", .text "primitive"), ("kind", .text p.name)]
  | .enumeration h => .object [("shape", .text "enum"), ("type_id", h.toJson)]
  | .object h => .object [("shape", .text "object"), ("type_id", h.toJson)]
  | .sequence element nullable layout =>
    .object [("shape", .text "sequence"), ("element", element.toJson),
      ("elements_nullable", .bool nullable), ("container", layout.toJson)]
  | .mapping value nullable =>
    .object [("shape", .text "mapping"), ("value", value.toJson),
      ("values_nullable", .bool nullable)]

/-- An emission, told apart from the others by `emit`. -/
def Emission.toJson : Emission → Json
  | .value shape => .object [("emit", .text "value"), ("shape", shape.toJson)]
  | .discriminator word => .object [("emit", .text "discriminator"), ("value", .ofText? word)]
  | .entries element nullable =>
    .object [("emit", .text "additionalProperties"), ("value", element.toJson),
      ("values_nullable", .bool nullable)]

/-- A write step. -/
def Step.toJson (s : Step) : Json :=
  .object [("property", .text s.property), ("wireName", .text s.wire),
    ("emission", s.emission.toJson), ("placement", .text s.placement.name),
    ("required", .bool s.required), ("nullable", .bool s.nullable)]

/-- A write plan. -/
def WritePlan.toJson (w : WritePlan) : Json :=
  .object [("rootName", .text w.rootName), ("namespace", .ofText? w.rootNamespace),
    ("steps", .array (w.steps.map Step.toJson))]

/-- A read action. -/
def Action.toJson (a : Action) : Json :=
  .object [("property", .text a.property), ("shape", a.shape.toJson),
    ("target", .text (match a.target with | .constructor => "constructor" | .setter => "setter")),
    ("nullable", .bool a.nullable), ("placement", .text a.placement.name)]

/-- The choice of a concrete type. -/
def Dispatch.toJson (d : Dispatch) : Json :=
  .object [("property", .text d.property), ("wireName", .text d.wire),
    ("placement", .text d.placement.name), ("variants", .ofTable Handle.toJson d.variants)]

/-- The target of unknown keys. -/
def CarrierTarget.toJson (t : CarrierTarget) : Json :=
  .object [("property", .text t.property), ("value", t.value.toJson),
    ("valuesNullable", .bool t.nullable)]

/-- A required field. -/
def RequiredField.toJson (r : RequiredField) : Json :=
  .object [("property", .text r.property), ("wireName", .text r.wire)]

/-- A read plan. -/
def ReadPlan.toJson (r : ReadPlan) : Json :=
  .object [("dispatch", .ofTable Action.toJson r.actions),
    ("discriminator", match r.discriminator with | some d => d.toJson | none => .null),
    ("additionalProperties", match r.carrier with | some t => t.toJson | none => .null),
    ("required", .array (r.required.map RequiredField.toJson)),
    ("constructionOrder", .array (r.constructionOrder.map .text))]

/-- The plan of an object type. -/
def TypePlan.toJson (p : TypePlan) : Json :=
  .object [("typeId", p.type.toJson), ("typeName", .text p.name),
    ("lineage", .array (p.lineage.map Handle.toJson)), ("isAbstract", .bool p.isAbstract),
    ("write", p.write.toJson), ("read", p.read.toJson)]

/-- The plan of an enumeration. -/
def EnumPlan.toJson (p : EnumPlan) : Json :=
  .object [("typeId", p.type.toJson), ("typeName", .text p.name),
    ("members", .array (p.members.map Member.toJson)), ("caseSensitive", .bool p.caseSensitive),
    ("open", .bool p.isOpen)]

/-- A plan set; its two tables are keyed by the numbers of the handles. -/
def PlanSet.toJson (s : PlanSet) : Json :=
  let keyed {α : Type} (f : α → Json) (t : Table Handle α) : Json :=
    .object (t.map fun e => (Number.natText e.1.index, f e.2))
  .object [("format", .text s.format.name), ("types", keyed TypePlan.toJson s.types),
    ("enums", keyed EnumPlan.toJson s.enums)]

end Marshal
