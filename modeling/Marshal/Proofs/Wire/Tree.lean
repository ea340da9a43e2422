import Marshal.Proofs.Outcome
import Marshal.Wire.Decode

/-!
# Decoding trees

A document is read by a cursor that only moves forward. What it reads is a tree, and decoding by
recursion on that tree needs no cursor: `Tree` says what a tree offers, and `Tree.value` and
`Tree.object` decode it. That a source which walks such a tree decodes the same is in
`Marshal.Proofs.Wire.Walk`.
-/

namespace Marshal

open Decode

/-- Trees that can be decoded. What a tree is not, it refuses; entries of a mapping refuse one by one,
when they are reached. Where something in a structure cannot even be reached, the parts or items in
front of it are decoded first. -/
class Tree (τ : Type) where
  /-- Whether the tree is an explicit null. -/
  isNull : τ → Bool
  /-- The scalar that the tree is. -/
  scalar : τ → Except DecodeError Token
  /-- The parts of an object, by name and placement. -/
  parts : τ → Except DecodeError (List (String × Placement × τ))
  /-- What is found behind the last part: the end of the object, or a fault. -/
  partsEnd : τ → Except DecodeError Unit := fun _ => .ok ()
  /-- The text of a part of an object, found ahead of the others. -/
  text? : τ → String → Placement → Except DecodeError (Option String)
  /-- The items of a sequence of a layout. -/
  items : Layout → τ → Except DecodeError (List τ)
  /-- What is found behind the last item: the end of the sequence, or a fault. -/
  itemsEnd : Layout → τ → Except DecodeError Unit := fun _ _ => .ok ()
  /-- The entries of a mapping. -/
  entries : τ → Except DecodeError (List (Except DecodeError (String × τ)))

namespace Tree

variable {τ : Type} [Tree τ]

/-- Decodes a tree along a shape; the text names it in errors. -/
abbrev Inner (τ : Type) := Shape → Bool → String → τ → Except DecodeError Value

/-- A scan that has passed a part. -/
def field (inner : Inner τ) (plan : TypePlan) (scan : Scan) (part : String × Placement × τ) :
    Except DecodeError Scan :=
  match boundAction plan part.1 part.2.1 with
  | some a => do
    let v ← inner a.shape a.nullable part.1 part.2.2
    return scan.assign a v
  | none =>
    match plan.read.carrier with
    | some c => do
      let v ← inner c.value c.nullable part.1 part.2.2
      return { scan with extra := Table.insert scan.extra part.1 v }
    | none => return scan

section Field

omit [Tree τ]

variable {inner : Inner τ} {plan : TypePlan} {scan scan' : Scan} {key : String}
  {placement : Placement} {t : τ}

/-- A part that is bound is read along its action. -/
theorem field_bound {a : Action} (ha : boundAction plan key placement = some a) :
    field inner plan scan (key, placement, t) =
      (inner a.shape a.nullable key t >>= fun v => pure (scan.assign a v)) := by
  rw [field]
  dsimp only
  rw [ha]

/-- A part that is bound to nothing is captured where there is a carrier. -/
theorem field_captured {target : CarrierTarget} (ha : boundAction plan key placement = none)
    (hc : plan.read.carrier = some target) :
    field inner plan scan (key, placement, t) =
      (inner target.value target.nullable key t >>= fun v =>
        pure { scan with extra := Table.insert scan.extra key v }) := by
  rw [field]
  dsimp only
  rw [ha, hc]

/-- A part that is bound to nothing is skipped where there is no carrier. -/
theorem field_skipped (ha : boundAction plan key placement = none) (hc : plan.read.carrier = none) :
    field inner plan scan (key, placement, t) = .ok scan := by
  rw [field]
  dsimp only
  rw [ha, hc]
  rfl

/-- **What a scan does with a part that it passes**: the part is assigned, captured or skipped. -/
theorem field_eq_ok {x : String × Placement × τ} (h : field inner plan scan x = .ok scan') :
    (∃ a v, boundAction plan x.1 x.2.1 = some a ∧ inner a.shape a.nullable x.1 x.2.2 = .ok v ∧
      scan' = scan.assign a v) ∨
    (boundAction plan x.1 x.2.1 = none ∧ ∃ target v, plan.read.carrier = some target ∧
      inner target.value target.nullable x.1 x.2.2 = .ok v ∧
      scan' = { scan with extra := Table.insert scan.extra x.1 v }) ∨
    boundAction plan x.1 x.2.1 = none ∧ plan.read.carrier = none ∧ scan' = scan := by
  obtain ⟨key, placement, t⟩ := x
  rcases ha : boundAction plan key placement with _ | a
  · rcases hc : plan.read.carrier with _ | target
    · rw [field_skipped ha hc] at h
      exact .inr (.inr ⟨rfl, rfl, (Except.ok.inj h).symm⟩)
    · rw [field_captured ha hc] at h
      obtain ⟨v, hv, h⟩ := Outcome.bind_eq_ok_iff.1 h
      exact .inr (.inl ⟨rfl, target, v, rfl, hv, (Outcome.pure_eq_ok_iff.1 h).symm⟩)
  · rw [field_bound ha] at h
    obtain ⟨v, hv, h⟩ := Outcome.bind_eq_ok_iff.1 h
    exact .inl ⟨a, v, rfl, hv, (Outcome.pure_eq_ok_iff.1 h).symm⟩

end Field

/-- A table that has gained an entry. -/
def entry (inner : String → τ → Except DecodeError Value) (table : List (String × Value))
    (e : Except DecodeError (String × τ)) : Except DecodeError (List (String × Value)) := do
  let (key, t) ← e
  let v ← inner key t
  return Table.insert table key v

/-- The plan of the concrete type of an object. -/
def concretePlan (s : PlanSet) (declared : TypePlan) (t : τ) : Except DecodeError TypePlan :=
  match declared.read.discriminator with
  | none => .ok declared
  | some d => do
    match ← Tree.text? t d.wire d.placement with
    | none => return declared
    | some word =>
      match Table.find? d.variants word with
      | none => throw (.unknownDiscriminator declared.name word)
      | some h => typePlan s h

/-- The object that a tree holds. -/
def object (s : PlanSet) (inner : Inner τ) (declared : Handle) (t : τ) :
    Except DecodeError Instance := do
  let declaredPlan ← typePlan s declared
  let parts ← Tree.parts t
  let plan ← concretePlan s declaredPlan t
  let scan ← parts.foldlM (field inner plan) ⟨[], []⟩
  Tree.partsEnd t
  scan.make plan

/-- The enumeration value that a tree holds. -/
def enumeration (s : PlanSet) (h : Handle) (field : String) (t : τ) : Except DecodeError Value :=
  match s.enum? h with
  | none => throw (.missingPlan h.index)
  | some p => do
    let token ← Tree.scalar t
    enumOfToken p field token

/-- The value of a tree that is no null. -/
def shaped (s : PlanSet) (inner : Option (Inner τ)) (shape : Shape) (name : String) (t : τ) :
    Except DecodeError Value :=
  match shape with
  | .primitive kind => do
    let token ← Tree.scalar t
    Token.toValue kind token name
  | .enumeration h => enumeration s h name t
  | .object h =>
    match inner with
    | none => throw (.nestingTooDeep name depthLimit)
    | some inner => do return (← object s inner h t).toValue
  | .sequence element nullable layout =>
    match inner with
    | none => throw (.nestingTooDeep name depthLimit)
    | some inner => do
      let items ← Tree.items layout t
      let vs ← items.mapM (inner element nullable name)
      Tree.itemsEnd layout t
      return .list vs
  | .mapping element nullable =>
    match inner with
    | none => throw (.nestingTooDeep name depthLimit)
    | some inner => do
      let entries ← Tree.entries t
      let es ← entries.foldlM (entry (inner element nullable)) []
      return .map es

/-- The value of a tree; an explicit null only where it is allowed. -/
def nullable (s : PlanSet) (inner : Option (Inner τ)) : Inner τ := fun shape allowed name t =>
  if Tree.isNull t then
    if allowed then .ok .null else throw (.unexpectedNull name)
  else shaped s inner shape name t

/-- The value of a tree inside which objects and collections may stand `room` deep. -/
def value (s : PlanSet) : Nat → Inner τ
  | 0 => nullable s none
  | room + 1 => nullable s (some (value s room))

/-- What reads inside of a value when there is room. -/
def innerOf (s : PlanSet) : Nat → Option (Inner τ)
  | 0 => none
  | room + 1 => some (value s room)

theorem value_eq (s : PlanSet) (room : Nat) : (value s room : Inner τ) = nullable s (innerOf s room) := by
  cases room <;> rfl

/-- A tree that is no null is read along its shape. -/
theorem value_of_not_null {s : PlanSet} {node : τ} {room : Nat} {n : Bool} {name : String}
    (hn : Tree.isNull node = false) (shape : Shape) :
    value s room shape n name node = shaped s (innerOf s room) shape name node := by
  rw [value_eq, nullable, hn, if_neg Bool.false_ne_true]

/-- The object of a document that is a tree. -/
def root (s : PlanSet) (declared : Handle) (t : τ) : Except DecodeError Instance :=
  object s (value s (depthLimit - 1)) declared t

end Tree

end Marshal
