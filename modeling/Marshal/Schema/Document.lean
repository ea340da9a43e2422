import Marshal.Catalogue.Entity
import Marshal.Table

/-!
# Schema documents

What a schema says about each type, before any name in it is looked up.
-/

namespace Marshal.Schema

/-- The type of a field: a name, or a collection. -/
inductive Target where
  | named (name : String)
  | collection (arrangement : Arrangement) (element : Target) (nullable : Bool)
deriving DecidableEq, Repr

/-- A field of an object type. -/
structure Field where
  name : String
  target : Target
  required : Bool
  nullable : Bool
  readOnly : Bool
  wire : Option String
  xmlName : Option String
  isAttribute : Bool
  isFlattened : Bool
  itemName : Option String
  carrier : Bool
deriving DecidableEq, Repr

/-- An object type. -/
structure ObjectDefinition where
  fields : List Field
  base : Option String
  isAbstract : Bool
  discriminator : Option String
  discriminatorValue : Option String
  rootName : Option String
  rootNamespace : Option String
deriving DecidableEq, Repr

/-- The definition of a type. An alias is another name of a primitive and no type of its own. -/
inductive Definition where
  | object (definition : ObjectDefinition)
  | enumeration (definition : Enumeration)
  | alias (primitive : Primitive)
deriving DecidableEq, Repr

/-- A schema: its definitions by name. -/
abbrev Document := Table String Definition

end Marshal.Schema
