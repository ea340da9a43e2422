import Marshal.Plan.Basic
import Marshal.Wire.Sink

/-!
# Encoding

Values are written by walking them along their plans. The discriminator word of an object is always
that of its type, whatever the object holds, and an entry of the carrier whose key is the name of a
property is left out, so no key is written twice.
-/

namespace Marshal

namespace Encode

/-- The plan of an object type. -/
def typePlan (s : PlanSet) (h : Handle) : Except EncodeError TypePlan :=
  match s.type? h with
  | some p => .ok p
  | none => .error (.missingPlan h.index)

/-- The word of an enumeration value. -/
def enumWord (s : PlanSet) (h : Handle) (e : EnumValue) : Except EncodeError String :=
  match s.enum? h with
  | none => .error (.missingPlan h.index)
  | some p =>
    match e with
    | .known member =>
      match Member.named? p.members member with
      | some m => .ok m.wire
      | none => .error (.unknownEnumMember p.name member)
    | .unknown raw => if p.isOpen then .ok raw else .error (.unknownEnumValue p.name raw)

/-- The plan for writing an object of type `h` where `declared` is expected: the type must be
planned, must be the declared type or below it, and must not be abstract. -/
def instancePlan (s : PlanSet) (pos : Position) (declared : Option Handle) (h : Handle) :
    Except EncodeError TypePlan := do
  let p ← typePlan s h
  match declared with
  | some d =>
    if s.isSubtype h d then pure ()
    else throw (.typeMismatch pos.label (← typePlan s d).name p.name)
  | none => pure ()
  if p.isAbstract then throw (.abstractInstance p.name)
  return p

/-- The container that a layout asks for at a position. -/
def containerAt (pos : Position) : Layout → Container
  | .wrapped item => .sequence item false
  | .flattened => .sequence pos.label true

variable {σ : Type} [Sink σ] (s : PlanSet)

mutual

/-- Writes an object. -/
def object (pos : Position) (declared : Option Handle) (type : Handle)
    (fields : List (String × Value)) : Writing σ Unit := do
  let plan ← Writing.lift (instancePlan s pos declared type)
  Sink.beginObject pos
  plan.write.steps.forM fun st => step plan fields st
  Sink.endObject
termination_by (sizeOf fields, 1)

/-- Performs one step of a write plan on the fields of an object. -/
def step (plan : TypePlan) (fields : List (String × Value)) (st : Step) : Writing σ Unit :=
  match st.emission with
  | .discriminator none => throw (.abstractInstance plan.name)
  | .discriminator (some word) => Sink.scalar (.field st.wire st.placement) (.text word)
  | .entries shape nullable =>
    match _ : Table.find? fields st.property with
    | none => pure ()
    | some .null => pure ()
    | some (.map captured) => extras plan shape nullable captured
    | some v => throw (.typeMismatch st.property "map" v.kindName)
  | .value shape =>
    match _ : Table.find? fields st.property with
    | none => if st.required then throw (.missingRequired plan.name st.property) else pure ()
    | some v => value (.field st.wire st.placement) shape st.nullable v
termination_by (sizeOf fields, 0)
decreasing_by
  all_goals
    have := List.sizeOf_lt_of_mem (Table.mem_of_find? (by assumption))
    simp only [Prod.mk.sizeOf_spec, Value.map.sizeOf_spec] at this
    omega

/-- Writes the entries of a carrier whose keys are not names of properties. -/
def extras (plan : TypePlan) (shape : Shape) (nullable : Bool) :
    List (String × Value) → Writing σ Unit
  | [] => pure ()
  | (key, v) :: rest => do
    if Table.contains plan.read.actions key then pure ()
    else value (.field key .element) shape nullable v
    extras plan shape nullable rest
termination_by captured => (sizeOf captured, 0)

/-- Writes the entries of a mapping. -/
def entries (shape : Shape) (nullable : Bool) : List (String × Value) → Writing σ Unit
  | [] => pure ()
  | (key, v) :: rest => do
    value (.entry key) shape nullable v
    entries shape nullable rest
termination_by es => (sizeOf es, 0)

/-- Writes the items of a sequence. -/
def items (shape : Shape) (nullable : Bool) : List Value → Writing σ Unit
  | [] => pure ()
  | v :: rest => do
    value .item shape nullable v
    items shape nullable rest
termination_by vs => (sizeOf vs, 0)

/-- Writes a value of a given shape; an explicit null only where it is allowed. -/
def value (pos : Position) (shape : Shape) (nullable : Bool) (v : Value) : Writing σ Unit :=
  match shape, v with
  | _, .null => if nullable then Sink.null pos else throw (.unexpectedNull pos.label)
  | .primitive kind, v => do
    let token ← Writing.lift (Token.ofValue kind v pos.label)
    Sink.scalar pos token
  | .enumeration h, .enum e => do
    let word ← Writing.lift (enumWord s h e)
    Sink.scalar pos (.text word)
  | .object h, .object type fields => object pos (some h) type fields
  | .sequence element nullable layout, .list vs => do
    Sink.beginContainer pos (containerAt pos layout)
    items element nullable vs
    Sink.endContainer
  | .mapping element nullable, .map es => do
    Sink.beginContainer pos .mapping
    entries element nullable es
    Sink.endContainer
  | shape, v => throw (.typeMismatch pos.label shape.name v.kindName)
termination_by (sizeOf v, 0)

end

/-- Writes an object as the root of a document. -/
def root (i : Instance) : Writing σ Unit := do
  let plan ← Writing.lift (typePlan s i.type)
  object s (.root plan.write.rootName plan.write.rootNamespace) none i.type i.fields

end Encode

/-- The document of an object in the format of the sink `σ`. -/
def encode (σ : Type) [Sink σ] (s : PlanSet) (i : Instance) : Except EncodeError String :=
  match Encode.root s i (Sink.start : σ) with
  | .ok _ state => Sink.finish state
  | .error e _ => .error e

end Marshal
