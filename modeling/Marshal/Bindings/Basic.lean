import Marshal.Catalogue.Entity

/-!
# Type declarations

The declarations that make the types of a catalogue available to a program: an enumeration of words,
an enumeration of the concrete types of a hierarchy, and a record of the properties of an object type.
Names are those of the program.
-/

namespace Marshal.Bindings

/-- The type of a field. A boxed type may contain itself. -/
inductive FieldType where
  | unit
  | primitive (p : Primitive)
  | named (name : String)
  | boxed (name : String)
  | option (type : FieldType)
  | sequence (element : FieldType)
  | mapping (element : FieldType)
deriving DecidableEq, Repr

/-- The name of a declaration that a field type refers to. -/
def FieldType.name? : FieldType → Option String
  | .unit => none
  | .primitive _ => none
  | .named n => some n
  | .boxed n => some n
  | .option t => t.name?
  | .sequence t => t.name?
  | .mapping t => t.name?

/-- A word and its name. -/
structure Label where
  name : String
  word : String
deriving DecidableEq, Repr

/-- A concrete type of a hierarchy, the word that selects it, and the record that holds its fields. -/
structure Variant where
  name : String
  word : String
  payload : String
deriving DecidableEq, Repr

/-- A field of a record, and its name in documents. -/
structure Field where
  name : String
  wire : String
  type : FieldType
deriving DecidableEq, Repr

/-- A declaration. -/
inductive Declaration where
  | words (name : String) (labels : List Label) (isOpen : Bool)
  | variants (name property : String) (variants : List Variant)
  | record (name title : String) (fields : List Field)
deriving DecidableEq, Repr

/-- The name that is declared. -/
def Declaration.name : Declaration → String
  | .words n _ _ => n
  | .variants n _ _ => n
  | .record n _ _ => n

end Marshal.Bindings
