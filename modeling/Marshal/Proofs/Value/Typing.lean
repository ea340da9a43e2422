import Marshal.Proofs.Plan.Properties
import Marshal.Proofs.Table.Ascending
import Marshal.Proofs.Time.Instant
import Marshal.Value

/-!
# Well typed values

`Conforms` is the typing of values by references of a catalogue. What an object may be in a slot
beyond that is a parameter: `Admits` asks that it is of the declared type or of one below it.
`nesting` is how deep objects, lists and maps stand in each other; the map of a carrier is part of
its object and counts nothing.
-/

namespace Marshal

open Time

/-- A value of a primitive type. -/
def Primitive.Holds : Primitive → Value → Prop
  | .string, .text _ => True
  | .boolean, .bool _ => True
  | .integer, .integer n => Number.fits 32 n.toInt = true
  | .long, .integer _ => True
  | .float, .float _ => True
  | .double, .float _ => True
  | .timestamp, .timestamp t => t.Valid
  | .blob, .blob _ => True
  | _, _ => False

theorem Primitive.not_holds_null {p : Primitive} : ¬ p.Holds .null := by
  cases p <;> exact not_false

theorem Primitive.not_holds_list {p : Primitive} {vs : List Value} : ¬ p.Holds (.list vs) := by
  cases p <;> exact not_false

theorem Primitive.not_holds_map {p : Primitive} {es : Table String Value} : ¬ p.Holds (.map es) := by
  cases p <;> exact not_false

theorem Primitive.not_holds_object {p : Primitive} {t : Handle} {fields : List (String × Value)} :
    ¬ p.Holds (.object t fields) := by
  cases p <;> exact not_false

/-- A word of an enumeration: that of a member, or one that no member takes if the enumeration is
open. -/
def Enumeration.Holds (e : Enumeration) : EnumValue → Prop
  | .known name => ∃ m ∈ e.members, m.name = name
  | .unknown raw => e.isOpen = true ∧ Member.match? e.members e.caseSensitive raw = none

/-- What an object may be in a slot: the declared type, its own type and its fields. -/
abbrev SlotRule := Handle → Handle → Table String Value → Prop

namespace Catalogue

variable {c : Catalogue}

/-- **The typing of values.** Null stands where the flag allows it. An object has planned properties
only and every required one, and its carrier is neither null nor empty. -/
inductive Conforms (c : Catalogue) (R : SlotRule) : Bool → Reference → Value → Prop where
  | null {r : Reference} : Conforms c R true r .null
  | primitive {n : Bool} {h : Handle} {p : Primitive} {v : Value} :
    c.kind? h = some (.primitive p) → p.Holds v → Conforms c R n (.named h) v
  | enumeration {n : Bool} {h : Handle} {e : Enumeration} {w : EnumValue} :
    c.kind? h = some (.enumeration e) → e.Holds w → Conforms c R n (.named h) (.enum w)
  | list {n m : Bool} {r : Reference} {vs : List Value} :
    (∀ v ∈ vs, Conforms c R m r v) → Conforms c R n (.collection .sequence r m) (.list vs)
  | map {n m : Bool} {r : Reference} {es : List (String × Value)} :
    Table.Ascending es → (∀ k v, (k, v) ∈ es → Conforms c R m r v) →
    Conforms c R n (.collection .mapping r m) (.map es)
  | object {n : Bool} {h t : Handle} {o : ObjectType} {fields : List (String × Value)}
    (type : c.object? t = some o)
    (slot : R h t fields)
    (ascending : Table.Ascending fields)
    (declared : ∀ k v, (k, v) ∈ fields → ∃ p ∈ c.plannedProperties t, p.name = k)
    (required : ∀ p ∈ c.plannedProperties t, p.carrier = false → p.required = true →
      ∃ v, Table.find? fields p.name = some v)
    (carried : ∀ p ∈ c.plannedProperties t, p.carrier = true →
      Table.find? fields p.name ≠ some (.map []))
    (typed : ∀ p ∈ c.plannedProperties t, ∀ v, Table.find? fields p.name = some v →
      Conforms c R (p.nullable && !p.carrier) p.type v) :
    Conforms c R n (.named h) (.object t fields)

/-- Values as they are read: an object is of the declared type or of one below it. -/
def Admits (c : Catalogue) : Bool → Reference → Value → Prop :=
  c.Conforms fun h t _ => c.Inherits t h

/-- Values are typed as well where more may stand in a slot. -/
theorem Conforms.mono {R R' : SlotRule} (hR : ∀ h t fields, R h t fields → R' h t fields) {n : Bool}
    {r : Reference} {v : Value} (hv : Conforms c R n r v) : Conforms c R' n r v := by
  induction hv with
  | null => exact .null
  | primitive hk hh => exact .primitive hk hh
  | enumeration hk hw => exact .enumeration hk hw
  | list _ ih => exact .list ih
  | map hasc _ ih => exact .map hasc ih
  | object type slot ascending declared required carried _ ih =>
    exact .object type (hR _ _ _ slot) ascending declared required carried ih

/-! ## Nesting -/

/-- The name of the carrier in effect. -/
def carrierName? (c : Catalogue) (h : Handle) : Option String := (c.carrier? h).map Property.name

mutual

/-- How deep objects, lists and maps stand in each other in a value. A map that is `carried` counts
nothing itself. -/
def nesting (c : Catalogue) (carried : Bool) : Value → Nat
  | .list vs => nestingItems c vs + 1
  | .map es => nestingEntries c es + (if carried then 0 else 1)
  | .object t fields => nestingFields c (c.carrierName? t) fields + 1
  | _ => 0

/-- How deep the items of a list nest. -/
def nestingItems (c : Catalogue) : List Value → Nat
  | [] => 0
  | v :: vs => max (nesting c false v) (nestingItems c vs)

/-- How deep the values of a map nest. -/
def nestingEntries (c : Catalogue) : List (String × Value) → Nat
  | [] => 0
  | (_, v) :: es => max (nesting c false v) (nestingEntries c es)

/-- How deep the fields of an object nest whose carrier has the given name. -/
def nestingFields (c : Catalogue) (carrier : Option String) : List (String × Value) → Nat
  | [] => 0
  | (k, v) :: fields => max (nesting c (carrier == some k) v) (nestingFields c carrier fields)

end

theorem nesting_of_holds {p : Primitive} {v : Value} (h : p.Holds v) (carried : Bool) :
    c.nesting carried v = 0 := by
  cases p <;> cases v <;> first | rfl | exact h.elim

/-- Of the planned properties just the carrier has the name of the carrier. -/
theorem WellFormed.carrierName?_beq (W : c.WellFormed) {h : Handle} {o : ObjectType} {p : Property}
    (ho : c.object? h = some o) (hp : p ∈ c.plannedProperties h) :
    (c.carrierName? h == some p.name) = p.carrier := by
  rcases hc : p.carrier with _ | _
  · rw [beq_eq_false_iff_ne]
    intro e
    obtain ⟨q, hq, hn⟩ := Option.map_eq_some_iff.1 e
    obtain ⟨hqp, hqc⟩ := mem_of_carrier? hq
    rw [W.eq_of_name ho hqp hp hn, hc] at hqc
    cases hqc
  · rw [carrierName?, (W.carrier?_eq_some_iff ho).2 ⟨hp, hc⟩, Option.map_some, beq_self_eq_true]

theorem nestingItems_le_iff {vs : List Value} {n : Nat} :
    c.nestingItems vs ≤ n ↔ ∀ v ∈ vs, c.nesting false v ≤ n := by
  induction vs with
  | nil => simp [nestingItems]
  | cons v vs ih => rw [nestingItems, Nat.max_le, ih, List.forall_mem_cons]

theorem nestingEntries_le_iff {es : List (String × Value)} {n : Nat} :
    c.nestingEntries es ≤ n ↔ ∀ k v, (k, v) ∈ es → c.nesting false v ≤ n := by
  induction es with
  | nil => simp [nestingEntries]
  | cons e es ih =>
    rw [nestingEntries, Nat.max_le, ih, Table.forall_mem_cons]

theorem nestingFields_le_iff {carrier : Option String} {fields : List (String × Value)} {n : Nat} :
    c.nestingFields carrier fields ≤ n ↔
      ∀ k v, (k, v) ∈ fields → c.nesting (carrier == some k) v ≤ n := by
  induction fields with
  | nil => simp [nestingFields]
  | cons e es ih =>
    rw [nestingFields, Nat.max_le, ih, Table.forall_mem_cons]

/-- What a planned property holds nests no deeper than the fields do. -/
theorem WellFormed.nesting_le_nestingFields (W : c.WellFormed) {t : Handle} {o : ObjectType}
    {fields : List (String × Value)} {p : Property} (ho : c.object? t = some o)
    (hp : p ∈ c.plannedProperties t) {v : Value} (hv : Table.find? fields p.name = some v) :
    c.nesting p.carrier v ≤ c.nestingFields (c.carrierName? t) fields := by
  have hle := nestingFields_le_iff.1 (Nat.le_refl (c.nestingFields (c.carrierName? t) fields)) p.name
    v (Table.mem_of_find? hv)
  rwa [W.carrierName?_beq ho hp] at hle

theorem nesting_list_le_iff {b : Bool} {vs : List Value} {n : Nat} :
    c.nesting b (.list vs) ≤ n + 1 ↔ ∀ v ∈ vs, c.nesting false v ≤ n := by
  rw [nesting, Nat.add_le_add_iff_right, nestingItems_le_iff]

theorem nesting_list_append_le {b : Bool} {vs ws : List Value} {n : Nat}
    (hv : c.nesting b (.list vs) ≤ n) (hw : c.nesting b (.list ws) ≤ n) :
    c.nesting b (.list (vs ++ ws)) ≤ n := by
  rcases n with _ | n
  · simp [nesting] at hv
  · rw [nesting_list_le_iff] at *
    intro v hm
    rcases List.mem_append.1 hm with hm | hm
    · exact hv v hm
    · exact hw v hm

/-- Two lists of one type make one list of that type. -/
theorem Conforms.append {R : SlotRule} {n : Bool} {r : Reference} {vs ws : List Value}
    (hv : c.Conforms R n r (.list vs)) (hw : c.Conforms R n r (.list ws)) :
    c.Conforms R n r (.list (vs ++ ws)) := by
  cases hv with
  | primitive _ hp => exact absurd hp Primitive.not_holds_list
  | list hv =>
    cases hw with
    | list hw =>
      refine .list fun v hm => ?_
      rcases List.mem_append.1 hm with hm | hm
      · exact hv v hm
      · exact hw v hm

end Catalogue

end Marshal
