import Marshal.Catalogue.Entity
import Marshal.Catalogue.Error
import Marshal.Table

/-!
# The catalogue

Types by handle, in the order of their declaration, the primitives first, with an index of their
names. A name is declared before it is defined, so that types can refer to each other and to
themselves. A catalogue is changed in place. When it is sealed it gets its discriminated hierarchies,
and it does not change any more.
-/

namespace Marshal

/-- A discriminated hierarchy: the topmost type that names a discriminator, and the concrete types
below it by their words. -/
structure Hierarchy where
  root : Handle
  property : String
  variants : Table String Handle
deriving DecidableEq, Repr

/-- The discriminated hierarchies of a catalogue, and the root of the one each type belongs to. -/
structure Forest where
  hierarchies : List Hierarchy
  membership : Table Handle Handle
deriving DecidableEq, Repr

namespace Forest

/-- No hierarchies. -/
def empty : Forest := ⟨[], []⟩

/-- The hierarchy a type belongs to. -/
def hierarchyOf? (f : Forest) (h : Handle) : Option Hierarchy :=
  (Table.find? f.membership h).bind fun root => f.hierarchies.find? fun y => y.root = root

/-- Puts a hierarchy in the place of the one with its root, or at the end. -/
def put (f : Forest) (y : Hierarchy) (h : Handle) : Forest :=
  { hierarchies :=
      if f.hierarchies.any fun z => z.root = y.root then
        f.hierarchies.map fun z => if z.root = y.root then y else z
      else f.hierarchies ++ [y]
    membership := Table.insert f.membership h y.root }

end Forest

/-- A declared name, and what is defined under it, once there is something. -/
structure Slot where
  name : String
  entity : Option Entity
deriving DecidableEq, Repr

/-- The kind of what is defined in a slot. -/
def Slot.kind (s : Slot) : Option Kind := s.entity.map Entity.kind

/-- The slot of a defined type. -/
def Entity.slot (e : Entity) : Slot := ⟨e.name, some e⟩

/-- The types of a schema, their handles by name, and the hierarchies, which are there when the
catalogue is sealed. -/
structure Catalogue where
  slots : Array Slot
  index : Table String Handle
  forest : Forest
  isSealed : Bool
deriving DecidableEq, Repr

namespace Catalogue

/-- A catalogue without types. -/
def empty : Catalogue := ⟨#[], [], .empty, false⟩

/-- One more slot, with its handle in the index. -/
def push (c : Catalogue) (s : Slot) : Catalogue :=
  { c with slots := c.slots.push s, index := Table.insert c.index s.name ⟨c.slots.size⟩ }

/-- More slots, one after the other. -/
def append (c : Catalogue) (slots : List Slot) : Catalogue := slots.foldl push c

/-- The catalogue of the primitives. -/
def initial : Catalogue :=
  empty.append (Primitive.all.map fun p => Entity.slot ⟨p.name, .primitive p⟩)

/-! ## Looking up -/

/-- The number of declared types. -/
def size (c : Catalogue) : Nat := c.slots.size

/-- Whether nothing but the primitives is declared. -/
def isEmpty (c : Catalogue) : Bool := c.size == Primitive.all.length

/-- The slot at a handle. -/
def slot? (c : Catalogue) (h : Handle) : Option Slot := c.slots[h.index]?

/-- The definition at a handle. -/
def kind? (c : Catalogue) (h : Handle) : Option Kind := (c.slot? h).bind Slot.kind

/-- The object type at a handle. -/
def object? (c : Catalogue) (h : Handle) : Option ObjectType := (c.kind? h).bind Kind.object?

/-- The definition at a handle, with its name. -/
def get? (c : Catalogue) (h : Handle) : Option Entity := (c.slot? h).bind Slot.entity

/-- The name at a handle, also of a type that is not defined yet. -/
def nameOf (c : Catalogue) (h : Handle) : String :=
  match c.slot? h with
  | some s => s.name
  | none => "<unknown>"

/-- The handle of a name. -/
def handleOf? (c : Catalogue) (name : String) : Option Handle := Table.find? c.index name

/-- The definition at a handle, or why there is none. -/
def resolve (c : Catalogue) (h : Handle) : Except CatalogueError Entity :=
  match c.slot? h with
  | none => .error (.unknownHandle h.index "resolve")
  | some s =>
    match s.entity with
    | none => .error (.undefinedType s.name)
    | some e => .ok e

/-- Every handle, in order. -/
def handles (c : Catalogue) : List Handle := (List.range c.size).map Handle.mk

/-- The handles whose definition passes a test, in order. -/
def handlesWhere (c : Catalogue) (p : Kind → Bool) : List Handle :=
  c.handles.filter fun h => (c.kind? h).any p

/-- The handles of the defined types. -/
def defined (c : Catalogue) : List Handle := c.handlesWhere fun _ => true

/-- The handles of the object types. -/
def objects (c : Catalogue) : List Handle := c.handlesWhere fun k => k.object?.isSome

/-- The handles of the enumerations. -/
def enumerations (c : Catalogue) : List Handle := c.handlesWhere fun k => k.enumeration?.isSome

/-! ## Inheritance -/

/-- The base of an object type. -/
def base? (c : Catalogue) (h : Handle) : Option Handle := (c.object? h).bind ObjectType.base

/-- The object types that have `h` as their base, in handle order. -/
def children (c : Catalogue) (h : Handle) : List Handle :=
  c.handles.filter fun k => c.base? k = some h

/-- The chain of bases from `h` upwards that visits nothing in `seen`. -/
def ascend (c : Catalogue) : Nat → List Handle → Handle → List Handle
  | 0, _, h => [h]
  | fuel + 1, seen, h =>
    match c.base? h with
    | none => [h]
    | some b => if b ∈ h :: seen then [h] else h :: ascend c fuel (h :: seen) b

/-- The type followed by its ancestors, nearest first. A chain that runs into itself stops before
the repetition. -/
def lineage (c : Catalogue) (h : Handle) : List Handle := c.ascend c.size [] h

/-- Whether the chain of bases from `h` runs into itself: then even the last type of its lineage
has a base. -/
def hasCycle (c : Catalogue) (h : Handle) : Bool :=
  match (c.lineage h).getLast? with
  | some top => (c.base? top).isSome
  | none => false

/-- Whether `sub` is `sup` or inherits from it. -/
def isSubtype (c : Catalogue) (sub sup : Handle) : Bool := sup ∈ c.lineage sub

/-- The inherited properties, those of the topmost ancestor first, and then the type's own. -/
def effectiveProperties (c : Catalogue) (h : Handle) : List Property :=
  ((c.lineage h).reverse.filterMap c.object?).flatMap ObjectType.properties

/-- The carrier in effect: that of the most derived type which has one. -/
def carrier? (c : Catalogue) (h : Handle) : Option Property :=
  ((c.lineage h).filterMap c.object?).findSome? fun o => o.properties.find? Property.carrier

/-! ## Declaring and defining -/

/-- A computation that changes a catalogue in place. What it has changed stays when it fails. -/
abbrev InPlace := EStateM CatalogueError Catalogue

namespace InPlace

/-- A result that leaves the catalogue alone. -/
def lift {α : Type} : Except CatalogueError α → InPlace α
  | .ok a => pure a
  | .error e => throw e

/-- What a computation gives where the catalogue is dropped when it fails. -/
def result {α : Type} (m : InPlace α) (c : Catalogue) : Except CatalogueError (α × Catalogue) :=
  match m c with
  | .ok a c' => .ok (a, c')
  | .error e _ => .error e

/-- Refuses to change the type of this name when the catalogue is sealed. -/
def ensureOpen (name : String) : InPlace Unit := do
  if (← get).isSealed then throw (.sealed name)

/-- The slot at a handle. -/
def slotAt (h : Handle) (context : String) : InPlace Slot := do
  match (← get).slot? h with
  | some s => return s
  | none => throw (.unknownHandle h.index context)

/-- The handle of a name, given out anew when the name is new. -/
def declare (name : String) : InPlace Handle := do
  match (← get).handleOf? name with
  | some h => return h
  | none =>
    ensureOpen name
    let h : Handle := ⟨(← get).size⟩
    modify fun c => { c with slots := c.slots.push ⟨name, none⟩ }
    modify fun c => { c with index := Table.insert c.index name h }
    return h

/-- Gives a declared handle its definition. An identical definition may be given again. -/
def define (h : Handle) (kind : Kind) : InPlace Unit := do
  let name := (← slotAt h "define").name
  ensureOpen name
  match (← slotAt h "define").entity with
  | some e => if e.kind = kind then return () else throw (.duplicateType name)
  | none =>
    modify fun c =>
      { c with slots := c.slots.modify h.index fun s => { s with entity := some ⟨name, kind⟩ } }

/-- Declares a name and defines it. -/
def register (e : Entity) : InPlace Handle := do
  let h ← declare e.name
  define h e.kind
  return h

end InPlace

/-- The catalogue in which a name is declared, with its handle. -/
def declare (c : Catalogue) (name : String) : Except CatalogueError (Handle × Catalogue) :=
  (InPlace.declare name).result c

/-- The catalogue in which a handle has a definition. -/
def define (c : Catalogue) (h : Handle) (kind : Kind) : Except CatalogueError Catalogue :=
  ((InPlace.define h kind).result c).map Prod.snd

/-- The catalogue in which a type is declared and defined, with its handle. -/
def register (c : Catalogue) (e : Entity) : Except CatalogueError (Handle × Catalogue) :=
  (InPlace.register e).result c

end Catalogue

end Marshal
