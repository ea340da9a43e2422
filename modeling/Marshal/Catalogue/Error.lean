import Marshal.Number.Integer

/-!
# Catalogue errors

Why a catalogue refuses a declaration, a definition or sealing, and the wording of each reason.
-/

namespace Marshal

/-- What is wrong with a discriminator. -/
inductive DiscriminatorFault where
  | missing
  | optional
  | nullable
  | notTextual
  | valueOutside
deriving DecidableEq, Repr

/-- The wording of a discriminator fault. -/
def DiscriminatorFault.message : DiscriminatorFault → String
  | .missing => "no such property"
  | .optional => "must be required"
  | .nullable => "must not be nullable"
  | .notTextual => "must be a string or enum"
  | .valueOutside => "discriminator value declared outside a discriminated hierarchy"

/-- Why a catalogue operation fails. -/
inductive CatalogueError where
  | duplicateType (name : String)
  | undefinedType (name : String)
  | unknownHandle (index : Nat) (context : String)
  | invalidBase (type base : String)
  | inheritanceCycle (type : String)
  | duplicateProperty (type name : String)
  | multipleCarriers (type : String)
  | carrierNotMapping (type field : String)
  | duplicateWireValue (enumeration value : String)
  | discriminatorConflict (type expected found : String)
  | duplicateDiscriminatorValue (value first second : String)
  | invalidDiscriminator (type field : String) (fault : DiscriminatorFault)
  | uncoveredConcreteType (type root : String)
  | sealed (name : String)
deriving DecidableEq, Repr

/-- A text between backquotes. -/
def quoted (s : String) : String := "\x60" ++ s ++ "\x60"

/-- The wording of a catalogue error. -/
def CatalogueError.message : CatalogueError → String
  | .duplicateType n => "type " ++ quoted n ++ " is already defined with a different structure"
  | .undefinedType n => "type " ++ quoted n ++ " was declared but never defined"
  | .unknownHandle i c => "unknown type id " ++ Number.natText i ++ " referenced from " ++ quoted c
  | .invalidBase t b =>
    "type " ++ quoted t ++ " extends " ++ quoted b ++ ", which is not an object type"
  | .inheritanceCycle t => "inheritance cycle detected at type " ++ quoted t
  | .duplicateProperty t n => "type " ++ quoted t ++ " declares " ++ quoted n ++ " more than once"
  | .multipleCarriers t =>
    "type " ++ quoted t ++ " declares more than one additional-properties carrier"
  | .carrierNotMapping t f =>
    "additional-properties carrier " ++ quoted (t ++ "." ++ f) ++ " must be a mapping"
  | .duplicateWireValue e v =>
    "enum " ++ quoted e ++ " declares wire value " ++ quoted v ++ " more than once"
  | .discriminatorConflict t e f =>
    "type " ++ quoted t ++ " declares discriminator " ++ quoted f ++ " but its hierarchy uses " ++
      quoted e
  | .duplicateDiscriminatorValue v a b =>
    "discriminator value " ++ quoted v ++ " is declared by both " ++ quoted a ++ " and " ++ quoted b
  | .invalidDiscriminator t f why =>
    "invalid discriminator property " ++ quoted (t ++ "." ++ f) ++ ": " ++ why.message
  | .uncoveredConcreteType t r =>
    "concrete type " ++ quoted t ++ " in hierarchy " ++ quoted r ++ " has no discriminator value"
  | .sealed n => "registry is sealed; cannot modify type " ++ quoted n

end Marshal
