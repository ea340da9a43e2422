import Marshal.Catalogue.Seal
import Marshal.Schema.Document

/-!
# Loading schemas

The object types and enumerations of a schema are declared in the order of their names, then defined
in the same order, and the catalogue is sealed. So a field may have a type that comes later, or the
type that it is in. A name means a definition of the schema first, and a primitive otherwise.
-/

namespace Marshal.Schema

/-- Why a schema gives no catalogue. -/
inductive LoadError where
  | unknownTarget (name context : String)
  | declaring (name : String) (e : CatalogueError)
  | defining (name : String) (e : CatalogueError)
  | sealing (e : CatalogueError)
deriving DecidableEq, Repr

/-- The wording of a failure to load a schema. -/
def LoadError.message : LoadError → String
  | .unknownTarget n c => "unknown target " ++ quoted n ++ " referenced from " ++ quoted c
  | .declaring n _ => "failed to declare " ++ quoted n
  | .defining n _ => "failed to define " ++ quoted n
  | .sealing _ => "schema failed validation"

/-- The error of the catalogue behind a failure. -/
def LoadError.cause? : LoadError → Option CatalogueError
  | .unknownTarget _ _ => none
  | .declaring _ e => some e
  | .defining _ e => some e
  | .sealing e => some e

/-- A definition that stands for a type of its own. -/
def Definition.isType : Definition → Bool
  | .alias _ => false
  | _ => true

variable (d : Document) (c : Catalogue)

/-- The handle of a name. -/
def handleOf? (name : String) : Option Handle :=
  match Table.find? d name with
  | some (.alias p) => some p.handle
  | some _ => c.handleOf? name
  | none => (Primitive.ofName? name).map Primitive.handle

/-- The handle of a name that is used in `context`. -/
def lookUp (context name : String) : Except LoadError Handle :=
  match handleOf? d c name with
  | some h => .ok h
  | none => .error (.unknownTarget name context)

/-- The type that a target means. -/
def reference (context : String) : Target → Except LoadError Reference
  | .named name => (lookUp d c context name).map .named
  | .collection arrangement element nullable =>
    (reference context element).map fun r => .collection arrangement r nullable

/-- The property that a field means. An item name asks for a wrapped sequence, even if a flattened
one was asked for. -/
def property (owner : String) (f : Field) : Except LoadError Property := do
  let type ← reference d c (owner ++ "." ++ f.name) f.target
  return {
    name := f.name, wire := f.wire.getD f.name, type, required := f.required
    nullable := f.nullable, settable := !f.readOnly, carrier := f.carrier, xmlName := f.xmlName
    placement := if f.isAttribute then .attribute else .element
    layout := match f.itemName with
      | some item => .wrapped item
      | none => if f.isFlattened then .flattened else .standard }

/-- The object type that a definition means. -/
def object (name : String) (o : ObjectDefinition) : Except LoadError ObjectType := do
  let base ← o.base.mapM (lookUp d c name)
  let properties ← o.fields.mapM (property d c name)
  return {
    base, properties, discriminator := o.discriminator, discriminatorValue := o.discriminatorValue
    isAbstract := o.isAbstract, rootName := o.rootName, rootNamespace := o.rootNamespace }

/-- The kind of type that a definition means; an alias means none. -/
def kind (name : String) : Definition → Except LoadError (Option Kind)
  | .object o => (object d c name o).map fun o => some (.object o)
  | .enumeration e => .ok (some (.enumeration e))
  | .alias _ => .ok none

/-- Declares the types among some definitions. -/
def declareAll : List (String × Definition) → Catalogue → Except LoadError Catalogue
  | [], c => .ok c
  | (name, definition) :: rest, c =>
    if definition.isType then
      match c.declare name with
      | .ok (_, c) => declareAll rest c
      | .error e => .error (.declaring name e)
    else declareAll rest c

/-- Defines the types among some definitions of the document. -/
def defineAll : List (String × Definition) → Catalogue → Except LoadError Catalogue
  | [], c => .ok c
  | (name, definition) :: rest, c => do
    match ← kind d c name definition, c.handleOf? name with
    | some k, some h =>
      match c.define h k with
      | .ok c => defineAll rest c
      | .error e => .error (.defining name e)
    | _, _ => defineAll rest c

/-- The sealed catalogue of a schema. -/
def Document.load (d : Document) : Except LoadError Catalogue := do
  let declared ← declareAll d .initial
  let defined ← defineAll d d declared
  match defined.trySeal with
  | .ok c => .ok c
  | .error e => .error (.sealing e)

end Marshal.Schema
