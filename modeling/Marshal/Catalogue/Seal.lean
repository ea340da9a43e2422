import Marshal.Catalogue.Hierarchy

/-!
# Sealing

A catalogue is sealed when every declared type is defined and every structural rule holds. The rules
are checked in a fixed order, each over all types before the next, and the first that fails is
reported.
-/

namespace Marshal.Catalogue

/-- The first element whose key is in `seen` or is the key of an earlier element. -/
def firstRepeat {α : Type} (key : α → String) : List String → List α → Option α
  | _, [] => none
  | seen, a :: as => if key a ∈ seen then some a else firstRepeat key (key a :: seen) as

/-- Members must differ in their words, as far as the enumeration tells words apart. -/
def checkEnumeration (name : String) (e : Enumeration) : Except CatalogueError Unit :=
  let key (m : Member) : String := if e.caseSensitive then m.wire else Text.lowerAscii m.wire
  match firstRepeat key [] e.members with
  | some m => .error (.duplicateWireValue name m.wire)
  | none => .ok ()

/-- The base must be an object type. -/
def checkBase (c : Catalogue) (name : String) (o : ObjectType) : Except CatalogueError Unit :=
  match o.base with
  | none => .ok ()
  | some b =>
    match c.slot? b with
    | none => .error (.unknownHandle b.index name)
    | some s => if (s.kind.bind Kind.object?).isSome then .ok () else .error (.invalidBase name s.name)

/-- A type has at most one carrier of its own, and a carrier is a mapping. -/
def checkCarrier (name : String) (o : ObjectType) : Except CatalogueError Unit :=
  match o.properties.filter Property.carrier with
  | [] => .ok ()
  | [p] =>
    match p.type with
    | .collection .mapping _ _ => .ok ()
    | _ => .error (.carrierNotMapping name p.name)
  | _ => .error (.multipleCarriers name)

/-- Every handle in a reference must be declared. -/
def checkReference (c : Catalogue) (context : String) : Reference → Except CatalogueError Unit
  | .named h => if (c.slot? h).isSome then .ok () else .error (.unknownHandle h.index context)
  | .collection _ element _ => checkReference c context element

/-- The rules on one object type by itself. -/
def checkObject (c : Catalogue) (name : String) (o : ObjectType) : Except CatalogueError Unit := do
  c.checkBase name o
  checkCarrier name o
  o.properties.forM fun p => c.checkReference (name ++ "." ++ p.name) p.type

/-- The rules on one definition. -/
def checkSlot (c : Catalogue) (s : Slot) : Except CatalogueError Unit :=
  match s.entity with
  | some ⟨name, .enumeration e⟩ => checkEnumeration name e
  | some ⟨name, .object o⟩ => c.checkObject name o
  | _ => .ok ()

/-- The first name that two properties share. All names count; of the names in documents only
those of properties that are no carriers. -/
def firstClash? : List String → List String → List String → List Property → Option String
  | _, _, _, [] => none
  | names, wires, xmlWires, p :: ps =>
    if p.name ∈ names then some p.name
    else if p.carrier then firstClash? (p.name :: names) wires xmlWires ps
    else if p.wire ∈ wires then some p.wire
    else if p.xmlWire ∈ xmlWires then some p.xmlWire
    else firstClash? (p.name :: names) (p.wire :: wires) (p.xmlWire :: xmlWires) ps

/-- The properties in effect must not share names. -/
def checkEffective (c : Catalogue) (h : Handle) : Except CatalogueError Unit :=
  match firstClash? [] [] [] (c.effectiveProperties h) with
  | some name => .error (.duplicateProperty (c.nameOf h) name)
  | none => .ok ()

/-- All rules. -/
def check (c : Catalogue) : Except CatalogueError Forest := do
  c.slots.toList.forM fun s => if s.entity.isNone then throw (.undefinedType s.name) else pure ()
  c.slots.toList.forM c.checkSlot
  c.objects.forM fun h =>
    if c.hasCycle h then throw (.inheritanceCycle (c.nameOf h)) else pure ()
  c.objects.forM c.checkEffective
  c.resolveForest

/-- Freezes the catalogue if every rule holds. Sealing again changes nothing. -/
def InPlace.trySeal : InPlace Unit := do
  unless (← get).isSealed do
    let f ← lift (← get).check
    modify fun c => { c with forest := f }
    modify fun c => { c with isSealed := true }

/-- The catalogue that is sealed. -/
def trySeal (c : Catalogue) : Except CatalogueError Catalogue :=
  (InPlace.trySeal.result c).map Prod.snd

end Marshal.Catalogue
