import Marshal.Plan.Basic
import Marshal.Wire.Source

/-!
# Decoding

An object is read by scanning its fields into tables, and it is made only after the scan, when every
required property has been filled; so a failed read yields no value at all. The concrete type is
found ahead of the scan by the word of the discriminator, wherever in the object it stands.

Objects and collections may stand in each other 128 deep, the root included. The recursion is on the
depth still allowed, and the loops over fields, items and entries are bounded by the source.
-/

namespace Marshal

namespace Decode

/-- How deep objects and collections may stand in each other, the root included. -/
def depthLimit : Nat := 128

variable {σ : Type} [Source σ]

/-- Reads a value of a shape at the cursor; the text names it in errors. -/
abbrev Inner (σ : Type) := Shape → Bool → String → Reading σ Value

/-- The plan of an object type. -/
def typePlan (s : PlanSet) (h : Handle) : Except DecodeError TypePlan :=
  match s.type? h with
  | some p => .ok p
  | none => .error (.missingPlan h.index)

/-! ## Enumerations -/

/-- The enumeration value of a word. -/
def enumValue (p : EnumPlan) (raw : String) : Except DecodeError Value :=
  match Member.match? p.members p.caseSensitive raw with
  | some m => .ok (.enum (.known m.name))
  | none => if p.isOpen then .ok (.enum (.unknown raw)) else .error (.unknownEnumValue p.name raw)

/-- The enumeration value of a token. -/
def enumOfToken (p : EnumPlan) (field : String) : Token → Except DecodeError Value
  | .text raw => enumValue p raw
  | t => .error (.typeMismatch field p.name t.kindName)

/-- Reads a word of an enumeration. -/
def enumeration (s : PlanSet) (h : Handle) (field : String) : Reading σ Value :=
  match s.enum? h with
  | none => throw (.missingPlan h.index)
  | some p => do
    let t ← Source.scalar
    Reading.lift (enumOfToken p field t)

/-! ## Collections -/

/-- Reads the items of the current sequence. -/
def items (inner : Reading σ Value) : Nat → Reading σ (List Value)
  | 0 => Reading.malformed .unboundedSource
  | fuel + 1 => do
    if ← Source.nextElement then
      let v ← inner
      let vs ← items inner fuel
      return v :: vs
    else return []

/-- Reads the entries of the current mapping into a table. -/
def entries (inner : String → Reading σ Value) :
    Nat → List (String × Value) → Reading σ (List (String × Value))
  | 0, _ => Reading.malformed .unboundedSource
  | fuel + 1, table => do
    match ← Source.nextEntry with
    | some key =>
      let v ← inner key
      entries inner fuel (Table.insert table key v)
    | none => return table

/-! ## Objects -/

/-- What a scan has gathered: values of properties by name, and captured values by key. -/
structure Scan where
  fields : Table String Value
  extra : Table String Value

/-- Adds a value to a scan. The siblings of a flattened sequence come one at a time and are joined;
any other value replaces an earlier one. -/
def Scan.assign (scan : Scan) (a : Action) (v : Value) : Scan :=
  let v := match Table.find? scan.fields a.property, v with
    | some (.list earlier), .list more =>
      if a.shape.isFlattened then .list (earlier ++ more) else .list more
    | _, v => v
  { scan with fields := Table.insert scan.fields a.property v }

/-- What a key fills; a name only binds in its planned placement. -/
def boundAction (plan : TypePlan) (key : String) (placement : Placement) : Option Action :=
  (Table.find? plan.read.actions key).filter fun a => a.placement = placement

/-- Reads the field at the cursor into a scan. -/
def field (inner : Inner σ) (plan : TypePlan) (scan : Scan) (key : String)
    (placement : Placement) : Reading σ Scan :=
  match boundAction plan key placement with
  | some a => do
    let v ← inner a.shape a.nullable key
    return scan.assign a v
  | none =>
    match plan.read.carrier with
    | some c => do
      let v ← inner c.value c.nullable key
      return { scan with extra := Table.insert scan.extra key v }
    | none => do
      Source.skip
      return scan

/-- Reads the fields of the current object. -/
def fields (inner : Inner σ) (plan : TypePlan) : Nat → Scan → Reading σ Scan
  | 0, _ => Reading.malformed .unboundedSource
  | fuel + 1, scan => do
    match ← Source.nextKey with
    | some (key, placement) =>
      let scan ← field inner plan scan key placement
      fields inner plan fuel scan
    | none => return scan

/-- The fields of a scan with what the carrier captured, if it captured anything. -/
def Scan.gathered (scan : Scan) (plan : TypePlan) : Table String Value :=
  match plan.read.carrier with
  | some c =>
    if scan.extra.isEmpty then scan.fields
    else Table.insert scan.fields c.property (.map scan.extra)
  | none => scan.fields

/-- Makes the object of a finished scan. -/
def Scan.make (scan : Scan) (plan : TypePlan) : Except DecodeError Instance :=
  let gathered := scan.gathered plan
  match plan.read.required.find? fun r => !Table.contains gathered r.property with
  | some r => .error (.missingRequired plan.name r.wire)
  | none =>
    .ok
      { type := plan.type
        fields := Table.ofList <| plan.read.constructionOrder.filterMap fun p =>
          (Table.find? gathered p).map fun v => (p, v) }

/-- The plan of the concrete type of the current object. Without a word the declared type is kept,
and the scan will report what is missing. -/
def concretePlan (s : PlanSet) (declared : TypePlan) : Reading σ TypePlan :=
  match declared.read.discriminator with
  | none => pure declared
  | some d => do
    match ← Source.peekField d.wire d.placement with
    | none => return declared
    | some word =>
      match Table.find? d.variants word with
      | none => throw (.unknownDiscriminator declared.name word)
      | some h => Reading.lift (typePlan s h)

/-- Reads the object at the cursor. -/
def object (s : PlanSet) (inner : Inner σ) (declared : Handle) : Reading σ Instance := do
  let declaredPlan ← Reading.lift (typePlan s declared)
  Source.beginObject
  let plan ← concretePlan s declaredPlan
  let scan ← fields inner plan (Source.bound (← get) + 1) ⟨[], []⟩
  Reading.lift (scan.make plan)

/-! ## Values -/

/-- The container that a layout asks for under a name. -/
def containerFor (name : String) : Layout → Container
  | .wrapped item => .sequence item false
  | .flattened => .sequence name true

/-- Reads a value that is no null. `inner` reads what stands inside; without it, nothing may. -/
def shaped (s : PlanSet) (inner : Option (Inner σ)) (shape : Shape) (name : String) :
    Reading σ Value :=
  match shape with
  | .primitive kind => do
    let t ← Source.scalar
    Reading.lift (Token.toValue kind t name)
  | .enumeration h => enumeration s h name
  | .object h =>
    match inner with
    | none => throw (.nestingTooDeep name depthLimit)
    | some inner => do return (← object s inner h).toValue
  | .sequence element nullable layout =>
    match inner with
    | none => throw (.nestingTooDeep name depthLimit)
    | some inner => do
      Source.beginContainer (containerFor name layout)
      let vs ← items (inner element nullable name) (Source.bound (← get) + 1)
      return .list vs
  | .mapping element nullable =>
    match inner with
    | none => throw (.nestingTooDeep name depthLimit)
    | some inner => do
      Source.beginContainer .mapping
      let es ← entries (inner element nullable) (Source.bound (← get) + 1) []
      return .map es

/-- Reads a value; an explicit null only where it is allowed. -/
def nullable (s : PlanSet) (inner : Option (Inner σ)) : Inner σ := fun shape allowed name => do
  if ← Source.isNull then
    if allowed then return .null else throw (.unexpectedNull name)
  else shaped s inner shape name

/-- Reads a value inside which objects and collections may stand `room` deep. -/
def value (s : PlanSet) : Nat → Inner σ
  | 0 => nullable s none
  | room + 1 => nullable s (some (value s room))

/-- Reads the root of a document. -/
def root (s : PlanSet) (declared : Handle) : Reading σ Instance :=
  object s (value s (depthLimit - 1)) declared

end Decode

/-- The object of a document declared as `declared`. -/
def decode {σ : Type} [Source σ] (s : PlanSet) (declared : Handle) (source : σ) :
    Except DecodeError Instance :=
  match Decode.root s declared source with
  | .ok i _ => .ok i
  | .error e _ => .error e

end Marshal
