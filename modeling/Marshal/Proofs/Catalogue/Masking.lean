import Marshal.Proofs.Catalogue.Reachable
import Marshal.Proofs.Catalogue.Rules

/-!
# Catalogues without the texts of documents

`Catalogue.mask` erases the texts that only documents show: the names of properties and the words of
members in documents, and the words that select types. What the rules and the declarations say of
names, of inheritance and of hierarchies does not depend on them.
-/

namespace Marshal

/-- A member without its word. -/
def Member.mask (m : Member) : Member := { m with wire := "" }

/-- An enumeration without its words. -/
def Enumeration.mask (e : Enumeration) : Enumeration :=
  { e with members := e.members.map Member.mask }

/-- A property without its names in documents. -/
def Property.mask (p : Property) : Property :=
  { p with wire := "", xmlName := p.xmlName.map fun _ => "" }

/-- An object type without the texts that its documents show. -/
def ObjectType.mask (o : ObjectType) : ObjectType :=
  { o with
    properties := o.properties.map Property.mask
    discriminatorValue := o.discriminatorValue.map fun _ => "" }

/-- A kind without the texts that its documents show. -/
def Kind.mask : Kind → Kind
  | .primitive p => .primitive p
  | .enumeration e => .enumeration e.mask
  | .object o => .object o.mask

/-- A type without the texts that its documents show. -/
def Entity.mask (e : Entity) : Entity := { e with kind := e.kind.mask }

/-- A slot without the texts that its documents show. -/
def Slot.mask (s : Slot) : Slot := { s with entity := s.entity.map Entity.mask }

theorem Slot.kind_mask (s : Slot) : s.mask.kind = s.kind.map Kind.mask := by
  rw [Slot.kind, Slot.kind, Slot.mask, Option.map_map, Option.map_map]
  rfl

namespace Catalogue

/-- A catalogue without the texts that its documents show. Only the types are looked at. -/
def mask (c : Catalogue) : Catalogue := { empty with slots := c.slots.map Slot.mask }

/-- Types with one mask make catalogues with one mask. -/
theorem mask_ofEntities {es es' : List Entity} (h : es.map Entity.mask = es'.map Entity.mask) :
    (ofEntities es).mask = (ofEntities es').mask := by
  have hmask : ∀ es, (ofEntities es).mask.slots =
      initial.slots.map Slot.mask ++ ((es.map Entity.mask).map Entity.slot).toArray := fun es => by
    have hslot : (es.map Entity.slot).map Slot.mask = (es.map Entity.mask).map Entity.slot := by
      rw [List.map_map, List.map_map]
      rfl
    have hslots := slots_append initial (es.map Entity.slot)
    rw [← hslot, ← List.map_toArray, ← Array.map_append, ← hslots]
    rfl
  exact congrArg (fun slots => ({ empty with slots := slots } : Catalogue))
    ((hmask es).trans (h ▸ (hmask es').symm))

variable (c : Catalogue)

theorem slot?_mask (h : Handle) : c.mask.slot? h = (c.slot? h).map Slot.mask :=
  Array.getElem?_map

theorem size_mask : c.mask.size = c.size := Array.size_map

theorem nameOf_mask (h : Handle) : c.mask.nameOf h = c.nameOf h := by
  rw [nameOf, slot?_mask, nameOf]
  cases c.slot? h <;> rfl

theorem kind?_mask (h : Handle) : c.mask.kind? h = (c.kind? h).map Kind.mask := by
  rw [kind?, slot?_mask, kind?, Option.bind_map, Option.map_bind]
  exact congrArg (c.slot? h).bind (funext Slot.kind_mask)

theorem object?_mask (h : Handle) : c.mask.object? h = (c.object? h).map ObjectType.mask := by
  rw [object?, kind?_mask, object?]
  rcases c.kind? h with _ | _ | _ | _ <;> rfl

theorem handlesWhere_mask {p : Kind → Bool} (hp : ∀ k, p k.mask = p k) :
    c.mask.handlesWhere p = c.handlesWhere p := by
  simp only [handlesWhere, handles, size_mask, kind?_mask, Option.any_map, hp]

theorem objects_mask : c.mask.objects = c.objects :=
  handlesWhere_mask c fun k => by cases k <;> rfl

theorem enumerations_mask : c.mask.enumerations = c.enumerations :=
  handlesWhere_mask c fun k => by cases k <;> rfl

/-! ## Inheritance -/

theorem base?_mask : c.mask.base? = c.base? := by
  funext h
  rw [base?, object?_mask, base?]
  cases c.object? h <;> rfl

theorem lineage_mask : c.mask.lineage = c.lineage := by
  have hascend : c.mask.ascend = c.ascend := by
    funext fuel seen h
    induction fuel generalizing seen h with
    | zero => rfl
    | succ fuel ih => simp only [ascend, ih, base?_mask]
  funext h
  rw [lineage, hascend, size_mask, lineage]

theorem effectiveProperties_mask (h : Handle) :
    c.mask.effectiveProperties h = (c.effectiveProperties h).map Property.mask := by
  have hobject : c.mask.object? = fun k => (c.object? k).map ObjectType.mask :=
    funext (object?_mask c)
  rw [effectiveProperties, effectiveProperties, lineage_mask, List.map_flatMap, hobject,
    ← List.map_filterMap, List.flatMap_map]
  rfl

theorem inherits_mask : c.mask.Inherits = c.Inherits := by
  have hextends : c.mask.Extends = c.Extends := by
    funext h b
    rw [Extends, base?_mask, Extends]
  rw [Inherits, hextends, Inherits]

theorem below_mask : c.mask.Below = c.Below := by
  funext h a
  simp only [below_iff, base?_mask, inherits_mask]

/-! ## Hierarchies -/

theorem names_mask : c.mask.Names = c.Names := by
  funext h d
  rw [Names, object?_mask, Names]
  simp only [Option.map_eq_some_iff, exists_exists_and_eq_and]
  rfl

theorem governs_mask : c.mask.Governs = c.Governs := by
  funext r h
  rw [Governs, inherits_mask, names_mask, below_mask, Governs]

theorem isSome_word?_mask (h : Handle) : (c.mask.word? h).isSome = (c.word? h).isSome := by
  rw [word?, object?_mask, word?]
  rcases c.object? h with _ | o
  · rfl
  · simp [ObjectType.mask]

end Catalogue

end Marshal
