import Marshal.Catalogue.Basic
import Marshal.Format

/-!
# Plans

How each object type is written and read in one format. A write plan lists steps in the order of
emission; a read plan says which property each key fills. Plans hold everything the encoder and the
decoder need, so neither looks at the catalogue.
-/

namespace Marshal

/-- The form of a value in documents. -/
inductive Shape where
  | primitive (kind : Primitive)
  | enumeration (type : Handle)
  | object (type : Handle)
  | sequence (element : Shape) (nullable : Bool) (layout : Layout)
  | mapping (value : Shape) (nullable : Bool)
deriving DecidableEq, Repr

namespace Shape

/-- Whether values of the shape are written as one scalar. -/
def isScalar : Shape → Bool
  | .primitive _ => true
  | .enumeration _ => true
  | _ => false

/-- Whether the shape is that of a sequence. -/
def isSequence : Shape → Bool
  | .sequence .. => true
  | _ => false

/-- Whether the shape is that of a sequence laid out as siblings. -/
def isFlattened : Shape → Bool
  | .sequence _ _ .flattened => true
  | _ => false

/-- The word for a shape. -/
def name : Shape → String
  | .primitive _ => "primitive"
  | .enumeration _ => "enum"
  | .object _ => "object"
  | .sequence .. => "list"
  | .mapping .. => "map"

end Shape

/-- What a step writes: the value of the property, the discriminator word of the type whatever the
object holds, or the entries of the carrier. -/
inductive Emission where
  | value (shape : Shape)
  | discriminator (value : Option String)
  | entries (value : Shape) (nullable : Bool)
deriving DecidableEq, Repr

/-- One step of a write plan. -/
structure Step where
  property : String
  wire : String
  emission : Emission
  placement : Placement
  required : Bool
  nullable : Bool
deriving DecidableEq, Repr

/-- How an object type is written. -/
structure WritePlan where
  rootName : String
  rootNamespace : Option String
  steps : List Step
deriving DecidableEq, Repr

/-- When a value that was read reaches the object: as it is made, or afterwards. -/
inductive Target where
  | constructor
  | setter
deriving DecidableEq, Repr

/-- What a key fills, and with what. -/
structure Action where
  property : String
  shape : Shape
  target : Target
  nullable : Bool
  placement : Placement
deriving DecidableEq, Repr

/-- Which concrete type is read, by the word of the discriminator. -/
structure Dispatch where
  property : String
  wire : String
  placement : Placement
  variants : Table String Handle
deriving DecidableEq, Repr

/-- Where keys go that no property takes. -/
structure CarrierTarget where
  property : String
  value : Shape
  nullable : Bool
deriving DecidableEq, Repr

/-- A property that must be filled, with the name reported when it is not. -/
structure RequiredField where
  property : String
  wire : String
deriving DecidableEq, Repr

/-- How an object type is read. -/
structure ReadPlan where
  actions : Table String Action
  discriminator : Option Dispatch
  carrier : Option CarrierTarget
  required : List RequiredField
  constructionOrder : List String
deriving DecidableEq, Repr

/-- How an object type is written and read. -/
structure TypePlan where
  type : Handle
  name : String
  lineage : List Handle
  isAbstract : Bool
  write : WritePlan
  read : ReadPlan
deriving DecidableEq, Repr

/-- How an enumeration is written and read. -/
structure EnumPlan where
  type : Handle
  name : String
  members : List Member
  caseSensitive : Bool
  isOpen : Bool
deriving DecidableEq, Repr

/-- Every plan for one format. -/
structure PlanSet where
  format : Format
  types : Table Handle TypePlan
  enums : Table Handle EnumPlan
deriving DecidableEq, Repr

namespace PlanSet

/-- The plan of an object type. -/
def type? (s : PlanSet) (h : Handle) : Option TypePlan := Table.find? s.types h

/-- The plan of an enumeration. -/
def enum? (s : PlanSet) (h : Handle) : Option EnumPlan := Table.find? s.enums h

/-- The first plan of an object type of this name. -/
def typeNamed? (s : PlanSet) (name : String) : Option TypePlan :=
  (s.types.map Prod.snd).find? fun p => p.name == name

/-- Whether `sub` is planned and is `sup` or inherits from it. -/
def isSubtype (s : PlanSet) (sub sup : Handle) : Bool :=
  match s.type? sub with
  | some p => sup ∈ p.lineage
  | none => false

end PlanSet

end Marshal
