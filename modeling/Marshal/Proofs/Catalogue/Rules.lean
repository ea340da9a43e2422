import Marshal.Catalogue.Seal
import Marshal.Proofs.Catalogue.Lineage
import Marshal.Proofs.Outcome

/-!
# The structural rules

`WellFormed` says of a catalogue what sealing asks for, one field a rule and without reference to
the order in which the rules are checked. This module also shows of each check that it passes
exactly when its rule holds, the rules on hierarchies apart.
-/

namespace Marshal

/-- What a word of an enumeration is told apart by. -/
def Enumeration.key (e : Enumeration) (m : Member) : String :=
  if e.caseSensitive then m.wire else Text.lowerAscii m.wire

/-- The handles that a reference mentions. -/
def Reference.handles : Reference → List Handle
  | .named h => [h]
  | .collection _ element _ => element.handles

/-- Whether a reference is to a mapping. -/
def Reference.isMapping : Reference → Bool
  | .collection .mapping _ _ => true
  | _ => false

/-- The properties that are no carriers. -/
def Property.plain (ps : List Property) : List Property := ps.filter fun p => !p.carrier

namespace Catalogue

/-- The type names the text as its discriminator. -/
def Names (c : Catalogue) (h : Handle) (d : String) : Prop :=
  ∃ o, c.object? h = some o ∧ o.discriminator = some d

/-- The word that selects a type. -/
def word? (c : Catalogue) (h : Handle) : Option String :=
  (c.object? h).bind ObjectType.discriminatorValue

/-- The first type roots the hierarchy of the second: it is the topmost type that names a
discriminator, among the second and its ancestors. -/
def Governs (c : Catalogue) (r h : Handle) : Prop :=
  c.Inherits h r ∧ (∃ d, c.Names r d) ∧ ∀ a d, c.Below r a → ¬ c.Names a d

/-- A property can be a discriminator: it is always there, never null, and a text or the word of an
enumeration. -/
def Discriminates (c : Catalogue) (p : Property) : Prop :=
  p.required = true ∧ p.nullable = false ∧ ∃ k, p.type = .named k ∧
    (c.kind? k = some (.primitive .string) ∨ ∃ e, c.kind? k = some (.enumeration e))

/-- **The structural rules of a catalogue.** -/
structure WellFormed (c : Catalogue) : Prop where
  /-- Every declared type is defined. -/
  defined : ∀ h s, c.slot? h = some s → s.kind.isSome = true
  /-- An enumeration tells its words apart. -/
  words : ∀ h e, c.kind? h = some (.enumeration e) → (e.members.map e.key).Nodup
  /-- A base is an object type. -/
  base : ∀ h b, c.base? h = some b → ∃ o, c.object? b = some o
  /-- A type has at most one carrier of its own. -/
  oneCarrier : ∀ h o, c.object? h = some o → (o.properties.filter Property.carrier).length ≤ 1
  /-- A carrier is a mapping. -/
  carrierMapping : ∀ h o, c.object? h = some o → ∀ p ∈ o.properties, p.carrier = true →
    p.type.isMapping = true
  /-- References are to declared types. -/
  declared : ∀ h o, c.object? h = some o → ∀ p ∈ o.properties, ∀ k ∈ p.type.handles,
    k.index < c.size
  /-- No type is its own ancestor. -/
  acyclic : c.Acyclic
  /-- The properties in effect differ in their names. -/
  names : ∀ h o, c.object? h = some o → ((c.effectiveProperties h).map Property.name).Nodup
  /-- Those that are no carriers differ in their keys. -/
  wires : ∀ h o, c.object? h = some o →
    ((Property.plain (c.effectiveProperties h)).map Property.wire).Nodup
  /-- They also differ in their names in markup. -/
  xmlWires : ∀ h o, c.object? h = some o →
    ((Property.plain (c.effectiveProperties h)).map Property.xmlWire).Nodup
  /-- A type that names a discriminator below one that does names the same. -/
  agree : ∀ h a d e, c.Below h a → c.Names a d → c.Names h e → e = d
  /-- The topmost type that names a discriminator has a property that can be one. -/
  discriminable : ∀ h d, c.Names h d → (∀ a e, c.Below h a → ¬ c.Names a e) →
    ∃ p ∈ c.effectiveProperties h, p.name = d ∧ c.Discriminates p
  /-- A type with a word names a discriminator, or an ancestor does. -/
  inside : ∀ h w, c.word? h = some w → ∃ a d, c.Inherits h a ∧ c.Names a d
  /-- The types of a hierarchy differ in their words. -/
  distinct : ∀ r h k w, c.Governs r h → c.Governs r k → c.word? h = some w → c.word? k = some w →
    h = k
  /-- A type of a hierarchy that is not abstract and has nothing below it has a word. -/
  covered : ∀ r h o, c.Governs r h → c.object? h = some o → o.isAbstract = false →
    (∀ k, c.base? k ≠ some h) → ∃ w, c.word? h = some w

variable {c : Catalogue}

/-! ## Words and names -/

theorem firstRepeat_eq_none_iff {α : Type} {key : α → String} {seen : List String} {as : List α} :
    firstRepeat key seen as = none ↔ (as.map key).Nodup ∧ ∀ a ∈ as, key a ∉ seen := by
  induction as generalizing seen with
  | nil => simp [firstRepeat]
  | cons a as ih =>
    rw [firstRepeat, List.map_cons, List.nodup_cons, List.forall_mem_cons]
    split
    · rename_i h
      simp [h]
    · rename_i h
      rw [ih]
      simp only [List.mem_cons, not_or, List.mem_map, not_exists, not_and]
      constructor
      · rintro ⟨hn, hd⟩
        exact ⟨⟨fun x hx => (hd x hx).1, hn⟩, h, fun x hx => (hd x hx).2⟩
      · rintro ⟨⟨hk, hn⟩, -, hd⟩
        exact ⟨hn, fun x hx => ⟨hk x hx, hd x hx⟩⟩

theorem checkEnumeration_eq_ok_iff {name : String} {e : Enumeration} :
    checkEnumeration name e = .ok () ↔ (e.members.map e.key).Nodup := by
  have key : firstRepeat e.key [] e.members = none ↔ (e.members.map e.key).Nodup := by
    rw [firstRepeat_eq_none_iff]
    simp
  rw [← key, checkEnumeration]
  split
  · rename_i m hm
    change firstRepeat e.key [] e.members = some m at hm
    simp [hm]
  · rename_i hm
    exact iff_of_true rfl hm

/-- Properties share no names: all names count, and the names in documents of those that are no
carriers. -/
theorem firstClash?_eq_none_iff {names wires xmlWires : List String} {ps : List Property} :
    firstClash? names wires xmlWires ps = none ↔
      ((ps.map Property.name).Nodup ∧ ∀ p ∈ ps, p.name ∉ names) ∧
      (((Property.plain ps).map Property.wire).Nodup ∧
        ∀ p ∈ Property.plain ps, p.wire ∉ wires) ∧
      (((Property.plain ps).map Property.xmlWire).Nodup ∧
        ∀ p ∈ Property.plain ps, p.xmlWire ∉ xmlWires) := by
  induction ps generalizing names wires xmlWires with
  | nil => simp [firstClash?, Property.plain]
  | cons p ps ih =>
    rw [firstClash?]
    by_cases hn : p.name ∈ names
    · simp [hn]
    by_cases hc : p.carrier = true
    · have hp : Property.plain (p :: ps) = Property.plain ps := by simp [Property.plain, hc]
      rw [if_neg hn, if_pos hc, ih, hp]
      simp only [List.mem_cons, not_or, List.map_cons, List.nodup_cons, List.mem_map, not_exists,
        not_and]
      grind
    · have hp : Property.plain (p :: ps) = p :: Property.plain ps := by simp [Property.plain, hc]
      rw [if_neg hn, if_neg hc, hp]
      by_cases hw : p.wire ∈ wires
      · simp [hw]
      by_cases hx : p.xmlWire ∈ xmlWires
      · rw [if_neg hw, if_pos hx]
        simp [hx]
      rw [if_neg hw, if_neg hx, ih]
      simp only [List.mem_cons, not_or, List.map_cons, List.nodup_cons, List.mem_map, not_exists,
        not_and]
      grind

theorem checkEffective_eq_ok_iff {h : Handle} :
    c.checkEffective h = .ok () ↔
      ((c.effectiveProperties h).map Property.name).Nodup ∧
      ((Property.plain (c.effectiveProperties h)).map Property.wire).Nodup ∧
      ((Property.plain (c.effectiveProperties h)).map Property.xmlWire).Nodup := by
  have key := @firstClash?_eq_none_iff [] [] [] (c.effectiveProperties h)
  simp only [List.not_mem_nil, not_false_eq_true, implies_true, and_true] at key
  rw [← key, checkEffective]
  split <;> simp_all

/-! ## Object types -/

theorem checkBase_eq_ok_iff {name : String} {o : ObjectType} :
    c.checkBase name o = .ok () ↔ ∀ b, o.base = some b → ∃ o', c.object? b = some o' := by
  have hobj : ∀ b, c.object? b = (c.slot? b).bind fun s => s.kind.bind Kind.object? := fun b => by
    rw [object?, kind?, Option.bind_assoc]
  rw [checkBase]
  rcases o.base with _ | b
  · simp
  · simp only [Option.some.injEq, forall_eq', hobj]
    rcases c.slot? b with _ | s
    · simp
    · rcases hs : s.kind.bind Kind.object? with _ | o' <;> simp [hs]

theorem checkCarrier_eq_ok_iff {name : String} {o : ObjectType} :
    checkCarrier name o = .ok () ↔ (o.properties.filter Property.carrier).length ≤ 1 ∧
      ∀ p ∈ o.properties, p.carrier = true → p.type.isMapping = true := by
  have hmem : (∀ p ∈ o.properties, p.carrier = true → p.type.isMapping = true) ↔
      ∀ p ∈ o.properties.filter Property.carrier, p.type.isMapping = true := by
    simp only [List.mem_filter, and_imp]
  rw [hmem, checkCarrier]
  rcases o.properties.filter Property.carrier with _ | ⟨p, _ | ⟨q, ps⟩⟩
  · simp
  · simp only [List.length_singleton, le_refl, List.mem_singleton, forall_eq, true_and]
    rcases p.type with h | ⟨_ | _, element, nullable⟩ <;> simp [Reference.isMapping]
  · simp

theorem checkReference_eq_ok_iff {context : String} {r : Reference} :
    c.checkReference context r = .ok () ↔ ∀ k ∈ r.handles, k.index < c.size := by
  induction r with
  | named h =>
    have : (c.slot? h).isSome = true ↔ h.index < c.size := by
      simp [slot?, size]
    simp only [checkReference, Reference.handles, List.mem_singleton, forall_eq, this]
    split <;> simp_all
  | collection _ element _ ih => exact ih

theorem checkObject_eq_ok_iff {name : String} {o : ObjectType} :
    c.checkObject name o = .ok () ↔
      (∀ b, o.base = some b → ∃ o', c.object? b = some o') ∧
      ((o.properties.filter Property.carrier).length ≤ 1 ∧
        ∀ p ∈ o.properties, p.carrier = true → p.type.isMapping = true) ∧
      ∀ p ∈ o.properties, ∀ k ∈ p.type.handles, k.index < c.size := by
  rw [checkObject, Outcome.bind_eq_ok_iff, ← @checkBase_eq_ok_iff c name,
    ← @checkCarrier_eq_ok_iff name]
  simp only [Outcome.bind_eq_ok_iff, Outcome.forM_eq_ok_iff, checkReference_eq_ok_iff]
  exact ⟨fun ⟨_, hb, _, hc, hr⟩ => ⟨hb, hc, hr⟩, fun ⟨hb, hc, hr⟩ => ⟨(), hb, (), hc, hr⟩⟩

/-! ## Over all types -/

theorem forall_slots {P : Slot → Prop} :
    (∀ s ∈ c.slots.toList, P s) ↔ ∀ h s, c.slot? h = some s → P s := by
  constructor
  · intro hall h s hs
    exact hall s (Array.mem_toList_iff.2 (Array.mem_of_getElem? hs))
  · intro hall s hs
    obtain ⟨i, hi⟩ := Array.getElem?_of_mem (Array.mem_toList_iff.1 hs)
    exact hall ⟨i⟩ s hi

theorem forall_objects {P : Handle → Prop} :
    (∀ h ∈ c.objects, P h) ↔ ∀ h o, c.object? h = some o → P h := by
  simp only [mem_objects, forall_exists_index]

/-- The checks pass exactly when each type passes its own and the hierarchies can be made. -/
theorem check_eq_ok_iff {f : Forest} :
    c.check = .ok f ↔
      (∀ s ∈ c.slots.toList, s.kind.isSome = true) ∧
      (∀ s ∈ c.slots.toList, c.checkSlot s = .ok ()) ∧
      (∀ h ∈ c.objects, c.hasCycle h = false) ∧
      (∀ h ∈ c.objects, c.checkEffective h = .ok ()) ∧
      c.resolveForest = .ok f := by
  have hdef : ∀ s : Slot, (if s.entity.isNone = true then
      (throw (.undefinedType s.name) : Except CatalogueError PUnit) else pure ()) = .ok () ↔
        s.kind.isSome = true := fun s => by
    rw [Slot.kind, Option.isSome_map]
    cases s.entity <;> simp [throw, throwThe, MonadExceptOf.throw, pure, Except.pure]
  have hcyc : ∀ h, (if c.hasCycle h = true then
      (throw (.inheritanceCycle (c.nameOf h)) : Except CatalogueError PUnit) else pure ()) = .ok () ↔
        c.hasCycle h = false := fun h => by
    cases c.hasCycle h <;> simp [throw, throwThe, MonadExceptOf.throw, pure, Except.pure]
  rw [check]
  simp only [Outcome.bind_eq_ok_iff, Outcome.forM_eq_ok_iff, hdef, hcyc, exists_and_left,
    exists_const]

end Catalogue

end Marshal
