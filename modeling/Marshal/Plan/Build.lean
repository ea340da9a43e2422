import Marshal.Catalogue.Hierarchy
import Marshal.Plan.Basic
import Marshal.Plan.Error

/-!
# Making plans

Each object type is planned from its properties in effect, inherited ones first. A property gives
one write step and, unless it is a carrier, one read action under the same name. A carrier that a
more derived type replaces is left out.
-/

namespace Marshal.Catalogue

/-- A catalogue error as a planning error. -/
def planned {α : Type} : Except CatalogueError α → Except PlanError α
  | .ok a => .ok a
  | .error e => .error (.catalogue e)

/-! ## Properties -/

/-- The name of a property in a format. -/
def wireName (f : Format) (p : Property) : String :=
  match f with
  | .json => p.wire
  | .xml => p.xmlWire

/-- The place of a property in a format. -/
def placementIn (f : Format) (p : Property) : Placement :=
  match f with
  | .json => .element
  | .xml => p.placement

/-- The layout of a property's own sequence in a format. Sequences inside it have the standard
layout. -/
def layoutIn (f : Format) (p : Property) : Layout :=
  match f with
  | .json => .standard
  | .xml => p.layout

/-- The shape of a reference, whose outermost sequence has the given layout. -/
def shapeOf (c : Catalogue) (layout : Layout) : Reference → Except PlanError Shape
  | .named h => do
    match (← planned (c.resolve h)).kind with
    | .primitive p => return .primitive p
    | .enumeration _ => return .enumeration h
    | .object _ => return .object h
  | .collection .sequence element nullable => do
    return .sequence (← shapeOf c .standard element) nullable layout
  | .collection .mapping element nullable => do
    return .mapping (← shapeOf c .standard element) nullable

/-- What a format cannot do with a property of this shape, if anything. -/
def layoutFault? (f : Format) (p : Property) (shape : Shape) : Option LayoutFault :=
  match f with
  | .json => none
  | .xml =>
    if p.placement = .attribute ∧ !shape.isScalar then some .structuredAttribute
    else if p.layout = .flattened ∧ !shape.isSequence then some .flattenedNonSequence
    else none

/-- The properties that a plan covers: those in effect, without carriers that are replaced. -/
def plannedProperties (c : Catalogue) (h : Handle) : List Property :=
  let carrier := (c.carrier? h).map Property.name
  (c.effectiveProperties h).filter fun p => !p.carrier || carrier == some p.name

/-- What one property contributes to a plan. -/
inductive Planned where
  | field (step : Step) (action : Action)
  | carrier (step : Step) (target : CarrierTarget)

/-- The write step of a contribution. -/
def Planned.step : Planned → Step
  | .field s _ => s
  | .carrier s _ => s

/-- The read action of a contribution, under the name of its property in the format. -/
def Planned.action? : Planned → Option (String × Action)
  | .field s a => some (s.wire, a)
  | .carrier .. => none

/-- The carrier target of a contribution. -/
def Planned.target? : Planned → Option CarrierTarget
  | .field .. => none
  | .carrier _ t => some t

/-- The required field of a contribution. -/
def Planned.required? : Planned → Option RequiredField
  | .field s _ => if s.required then some ⟨s.property, s.wire⟩ else none
  | .carrier .. => none

/-- Whether a contribution is given at construction. -/
def Planned.early : Planned → Bool
  | .field _ a => a.target = .constructor
  | .carrier .. => false

/-- The contribution of a carrier. -/
def planCarrier (c : Catalogue) (f : Format) (owner : String) (p : Property) :
    Except PlanError Planned :=
  match p.type with
  | .collection .mapping element nullable => do
    let value ← c.shapeOf .standard element
    return .carrier
      { property := p.name, wire := wireName f p, emission := .entries value nullable
        placement := .element, required := false, nullable := p.nullable }
      { property := p.name, value, nullable }
  | _ => .error (.invalidLayout owner p.name .carrierNotMapping)

/-- The contribution of a property that is no carrier. `word` is the word of the type when the
property is its discriminator. -/
def planField (c : Catalogue) (f : Format) (owner : String) (word : Option (Option String))
    (p : Property) : Except PlanError Planned := do
  let shape ← c.shapeOf (layoutIn f p) p.type
  match layoutFault? f p shape with
  | some fault => throw (.invalidLayout owner p.name fault)
  | none =>
    let emission := match word with
      | some value => Emission.discriminator value
      | none => Emission.value shape
    return .field
      { property := p.name, wire := wireName f p, emission, placement := placementIn f p
        required := p.required, nullable := p.nullable }
      { property := p.name, shape, target := if p.settable then .setter else .constructor
        nullable := p.nullable, placement := placementIn f p }

/-- The contribution of a property of object type `o`, named `owner`, at handle `h`. -/
def planProperty (c : Catalogue) (f : Format) (h : Handle) (owner : String) (o : ObjectType)
    (p : Property) : Except PlanError Planned :=
  if p.carrier then c.planCarrier f owner p
  else
    let discriminator := (c.forest.hierarchyOf? h).map Hierarchy.property
    c.planField f owner (if discriminator = some p.name then some o.discriminatorValue else none) p

/-! ## Types -/

/-- The steps in the order of emission: markup writes attributes before anything else. -/
def orderSteps (f : Format) (steps : List Step) : List Step :=
  match f with
  | .json => steps
  | .xml =>
    steps.filter (fun s => s.placement = .attribute) ++
      steps.filter (fun s => s.placement ≠ .attribute)

/-- The actions of the contributions by name. -/
def actionsOf (ps : List Planned) : Table String Action :=
  Table.ofList (ps.filterMap Planned.action?)

/-- The carrier target of the contributions. -/
def carrierOf (ps : List Planned) : Option CarrierTarget :=
  (ps.filterMap Planned.target?).getLast?

/-- The required fields of the contributions. -/
def requiredOf (ps : List Planned) : List RequiredField := ps.filterMap Planned.required?

/-- The properties given at construction, then the others. -/
def constructionOrderOf (ps : List Planned) : List String :=
  (ps.filter Planned.early ++ ps.filter fun p => !p.early).map fun p => p.step.property

/-- The choice of the concrete type when a value declared as `h` is read. -/
def dispatchOf (c : Catalogue) (h : Handle) (actions : Table String Action) : Option Dispatch := do
  let y ← c.forest.hierarchyOf? h
  let variants := c.variantsFor h
  if variants.isEmpty then none
  else
    let (wire, action) ← List.find? (fun e => e.2.property == y.property) actions
    return { property := y.property, wire, placement := action.placement, variants }

/-- The plan of an object type from the contributions of its properties. -/
def assemble (c : Catalogue) (f : Format) (h : Handle) (name : String) (o : ObjectType)
    (ps : List Planned) : TypePlan :=
  let actions := actionsOf ps
  { type := h
    name
    lineage := c.lineage h
    isAbstract := o.isAbstract
    write :=
      { rootName := o.rootName.getD name
        rootNamespace := o.rootNamespace
        steps := orderSteps f (ps.map Planned.step) }
    read :=
      { actions
        discriminator := c.dispatchOf h actions
        carrier := carrierOf ps
        required := requiredOf ps
        constructionOrder := constructionOrderOf ps } }

/-- Plans the object type at a handle of a sealed catalogue. -/
def planObject (c : Catalogue) (f : Format) (h : Handle) : Except PlanError TypePlan := do
  let e ← planned (c.resolve h)
  match e.kind with
  | .object o =>
    let ps ← (c.plannedProperties h).mapM (c.planProperty f h e.name o)
    return c.assemble f h e.name o ps
  | _ => throw (.notPlannable e.name)

/-- Plans the enumeration at a handle of a sealed catalogue. -/
def planEnumeration (c : Catalogue) (h : Handle) : Except PlanError EnumPlan := do
  let e ← planned (c.resolve h)
  match e.kind with
  | .enumeration n =>
    return { type := h, name := e.name, members := n.members, caseSensitive := n.caseSensitive,
             isOpen := n.isOpen }
  | _ => throw (.notPlannable e.name)

/-! ## Plan sets -/

/-- Refuses a catalogue that is not sealed. -/
def requireSealed (c : Catalogue) : Except PlanError Unit :=
  if c.isSealed then .ok () else .error .notSealed

/-- The plan of one object type. -/
def planType (c : Catalogue) (f : Format) (h : Handle) : Except PlanError TypePlan := do
  c.requireSealed
  c.planObject f h

/-- The plan of one enumeration. -/
def planEnum (c : Catalogue) (h : Handle) : Except PlanError EnumPlan := do
  c.requireSealed
  c.planEnumeration h

/-- Every plan for a format. Whether the run was cancelled is asked before each object type. -/
def planAll (c : Catalogue) (f : Format) (cancelled : Bool := false) :
    Except PlanError PlanSet := do
  c.requireSealed
  let types ← c.objects.mapM fun h =>
    if cancelled then throw .cancelled else c.planObject f h
  let enums ← c.enumerations.mapM c.planEnumeration
  return { format := f, types := Table.ofList (types.map fun p => (p.type, p))
           enums := Table.ofList (enums.map fun p => (p.type, p)) }

/-- Every plan for several formats, in order. -/
def planFormats (c : Catalogue) (fs : List Format) (cancelled : Bool := false) :
    Except PlanError (List PlanSet) := do
  c.requireSealed
  fs.mapM fun f => c.planAll f cancelled

end Marshal.Catalogue
