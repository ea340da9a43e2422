import Marshal.Catalogue.Basic

/-!
# Discriminated hierarchies

Every object type without a base is walked top down, one generation after the other. The first type
on a path that names a discriminator roots a hierarchy; the types below it belong to that hierarchy
and contribute their words. A type visited after its base finds its hierarchy by looking up the
base's.
-/

namespace Marshal.Catalogue

/-- The object types without a base. -/
def roots (c : Catalogue) : List Handle := c.objects.filter fun h => c.base? h = none

/-- The types of a generation and of those below it, at most `fuel` generations. -/
def generations (c : Catalogue) : Nat → List Handle → List Handle
  | 0, _ => []
  | _ + 1, [] => []
  | fuel + 1, level => level ++ generations c fuel (level.flatMap c.children)

/-- Every object type below a type without a base, in the order of the walk. -/
def topDown (c : Catalogue) : List Handle := c.roots.flatMap fun r => c.generations c.size [r]

/-- Whether a type can hold a discriminator word. -/
def isTextual (c : Catalogue) : Reference → Bool
  | .named h =>
    match c.kind? h with
    | some (.primitive .string) => true
    | some (.enumeration _) => true
    | _ => false
  | .collection .. => false

/-- What is wrong with property `field` as a discriminator of `h`, if anything. -/
def discriminatorFault? (c : Catalogue) (h : Handle) (field : String) :
    Option DiscriminatorFault :=
  match (c.effectiveProperties h).find? fun p => p.name = field with
  | none => some .missing
  | some p =>
    if !p.required then some .optional
    else if p.nullable then some .nullable
    else if !c.isTextual p.type then some .notTextual
    else none

/-- The hierarchy that governs a visited type, given the forest of the types visited before. A type
that is the first on its path to name a discriminator roots a new one. -/
def governing (c : Catalogue) (f : Forest) (h : Handle) (o : ObjectType) :
    Except CatalogueError (Option Hierarchy) :=
  match o.discriminator, o.base.bind f.hierarchyOf? with
  | some own, some inherited =>
    if own = inherited.property then .ok (some inherited)
    else .error (.discriminatorConflict (c.nameOf h) inherited.property own)
  | some own, none =>
    match c.discriminatorFault? h own with
    | some fault => .error (.invalidDiscriminator (c.nameOf h) own fault)
    | none => .ok (some ⟨h, own, []⟩)
  | none, inherited => .ok inherited

/-- The hierarchy with the word of a visited type, which must not be taken. A concrete type without
types below it must have a word. -/
def withWord (c : Catalogue) (y : Hierarchy) (h : Handle) (o : ObjectType) :
    Except CatalogueError Hierarchy :=
  match o.discriminatorValue with
  | some value =>
    match Table.find? y.variants value with
    | some first => .error (.duplicateDiscriminatorValue value (c.nameOf first) (c.nameOf h))
    | none => .ok { y with variants := Table.insert y.variants value h }
  | none =>
    if !o.isAbstract && (c.children h).isEmpty then
      .error (.uncoveredConcreteType (c.nameOf h) (c.nameOf y.root))
    else .ok y

/-- Adds a visited type to the forest. -/
def visit (c : Catalogue) (f : Forest) (h : Handle) : Except CatalogueError Forest :=
  match c.object? h with
  | none => .ok f
  | some o => do
    match ← c.governing f h o with
    | some y => return f.put (← c.withWord y h o) h
    | none =>
      if o.discriminatorValue.isSome then
        throw (.invalidDiscriminator (c.nameOf h) "" .valueOutside)
      return f

/-- The discriminated hierarchies. -/
def resolveForest (c : Catalogue) : Except CatalogueError Forest :=
  c.topDown.foldlM c.visit .empty

/-- The words that select `h` or a type below it, when a value declared as `h` is read. -/
def variantsFor (c : Catalogue) (h : Handle) : Table String Handle :=
  match c.forest.hierarchyOf? h with
  | some y => y.variants.filter fun v => c.isSubtype v.2 h
  | none => []

end Marshal.Catalogue
