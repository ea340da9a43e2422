import Marshal.Text.Blank

/-!
# Entities

The types a catalogue holds: primitives, enumerations of words, and objects with properties and at
most one base. Types refer to each other by handle, so that a reference can stand before its target
is defined.
-/

namespace Marshal

/-- The place of a type in a catalogue. -/
structure Handle where
  index : Nat
deriving DecidableEq, Repr

instance : LT Handle := ⟨fun a b => a.index < b.index⟩

instance : DecidableLT Handle := fun a b => inferInstanceAs (Decidable (a.index < b.index))

/-! ## Primitives -/

/-- The built-in scalar types. -/
inductive Primitive where
  | string
  | boolean
  | integer
  | long
  | float
  | double
  | timestamp
  | blob
deriving DecidableEq, Repr

namespace Primitive

/-- Every primitive, in handle order. -/
def all : List Primitive := [string, boolean, integer, long, float, double, timestamp, blob]

/-- The name of a primitive. -/
def name : Primitive → String
  | string => "string"
  | boolean => "boolean"
  | integer => "integer"
  | long => "long"
  | float => "float"
  | double => "double"
  | timestamp => "timestamp"
  | blob => "blob"

/-- The primitive of this name. -/
def ofName? (s : String) : Option Primitive := all.find? fun p => p.name = s

/-- The handle every catalogue gives a primitive. -/
def handle : Primitive → Handle
  | string => ⟨0⟩
  | boolean => ⟨1⟩
  | integer => ⟨2⟩
  | long => ⟨3⟩
  | float => ⟨4⟩
  | double => ⟨5⟩
  | timestamp => ⟨6⟩
  | blob => ⟨7⟩

end Primitive

/-! ## Enumerations -/

/-- A member of an enumeration: its name in the model and its word in documents. -/
structure Member where
  name : String
  wire : String
deriving DecidableEq, Repr

/-- A list of words. An open enumeration also lets through words it does not list. -/
structure Enumeration where
  members : List Member
  caseSensitive : Bool
  isOpen : Bool
deriving DecidableEq, Repr

/-- The first member whose word is `raw`, the case of ASCII letters ignored unless it matters. -/
def Member.match? (members : List Member) (caseSensitive : Bool) (raw : String) : Option Member :=
  members.find? fun m => if caseSensitive then m.wire == raw else Text.sameIgnoringCase m.wire raw

/-- The first member of this name. -/
def Member.named? (members : List Member) (name : String) : Option Member :=
  members.find? fun m => m.name == name

/-! ## Properties -/

/-- How a collection is keyed: by position or by text. -/
inductive Arrangement where
  | sequence
  | mapping
deriving DecidableEq, Repr

/-- The type of a value: a type of the catalogue, or a collection. -/
inductive Reference where
  | named (handle : Handle)
  | collection (arrangement : Arrangement) (element : Reference) (nullable : Bool)
deriving DecidableEq, Repr

/-- Where a property stands in markup. -/
inductive Placement where
  | element
  | attribute
deriving DecidableEq, Repr

/-- How markup lays a sequence out: inside one element, or as siblings named after the property. -/
inductive Layout where
  | wrapped (item : String)
  | flattened
deriving DecidableEq, Repr

/-- The layout of sequences that ask for none. -/
def Layout.standard : Layout := .wrapped "member"

/-- A property of an object type. A carrier takes the keys that no other property takes. -/
structure Property where
  name : String
  wire : String
  type : Reference
  required : Bool := false
  nullable : Bool := false
  settable : Bool := true
  carrier : Bool := false
  xmlName : Option String := none
  placement : Placement := .element
  layout : Layout := .standard
deriving DecidableEq, Repr

/-- The name of a property in markup. -/
def Property.xmlWire (p : Property) : String := p.xmlName.getD p.wire

/-! ## Objects and entities -/

/-- An object type. A discriminator names the property whose word tells the concrete types below
apart, and a discriminator value is the word of this type. -/
structure ObjectType where
  base : Option Handle := none
  properties : List Property := []
  discriminator : Option String := none
  discriminatorValue : Option String := none
  isAbstract : Bool := false
  rootName : Option String := none
  rootNamespace : Option String := none
deriving DecidableEq, Repr

/-- What a type is. -/
inductive Kind where
  | primitive (primitive : Primitive)
  | enumeration (enumeration : Enumeration)
  | object (object : ObjectType)
deriving DecidableEq, Repr

namespace Kind

/-- The primitive of a kind that is one. -/
def primitive? : Kind → Option Primitive
  | .primitive p => some p
  | _ => none

/-- The enumeration of a kind that is one. -/
def enumeration? : Kind → Option Enumeration
  | .enumeration e => some e
  | _ => none

/-- The object type of a kind that is one. -/
def object? : Kind → Option ObjectType
  | .object o => some o
  | _ => none

end Kind

/-- A defined type with its name. -/
structure Entity where
  name : String
  kind : Kind
deriving DecidableEq, Repr

end Marshal
