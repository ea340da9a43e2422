import Marshal.Proofs.Catalogue.Runs
import Marshal.Proofs.Table.Ascending
import Marshal.Schema.Load

/-!
# What schemas mean

What a schema says, without loading it. A name means the type of this name; if there is none it means
the primitive it is an alias of, and at last the primitive of this name (`Document.Means`). The handle
of a type is its place among the types of the schema, so it makes no difference where a name is used.
A catalogue translates the schema if every type in it is what its definition denotes
(`Document.Translates`).

In a catalogue that has the names of the schema behind those of the primitives, look-ups follow the
meaning of names (`handleOf?_eq_some_iff_means`), and what a definition denotes is just what is made of
it (`kind_eq_ok_iff`). Making it fails only at a name that the definition uses and that is unknown
(`exists_uses_of_kind_eq_error`).
-/

namespace Marshal.Schema

open Outcome

/-! ## Names -/

/-- The definitions that stand for types of their own, in order. -/
def Document.types (d : Document) : Document := d.filter fun e => e.2.isType

/-- What a name means: a type of the schema, the primitive that it is another name of, or the
primitive of this name if the schema does not define the name. -/
inductive Document.Means (d : Document) : String → Handle → Prop where
  | type {i : Nat} {name : String} {definition : Definition} :
    d.types[i]? = some (name, definition) → Means d name ⟨8 + i⟩
  | synonym {name : String} {p : Primitive} : (name, .alias p) ∈ d → Means d name p.handle
  | primitive {p : Primitive} : p.name ∉ Table.keys d → Means d p.name p.handle

/-- A name is unknown if the schema does not define it and it is not that of a primitive. -/
def Document.Unknown (d : Document) (name : String) : Prop :=
  name ∉ Table.keys d ∧ ∀ p : Primitive, p.name ≠ name

/-- A type has the name of a primitive. -/
def Document.Collides (d : Document) : Prop :=
  ∃ (p : Primitive) (definition : Definition), (p.name, definition) ∈ d.types

/-- The name in a target, however many collections are around it. -/
def Target.leaf : Target → String
  | .named name => name
  | .collection _ element _ => element.leaf

/-- What a definition uses, with the place where it does: the name of its base, and the names in the
targets of its fields. -/
inductive Definition.Uses (owner : String) : Definition → String → String → Prop where
  | base {o : ObjectDefinition} {name : String} :
    o.base = some name → Uses owner (.object o) owner name
  | field {o : ObjectDefinition} {f : Field} :
    f ∈ o.fields → Uses owner (.object o) (owner ++ "." ++ f.name) f.target.leaf

/-- What is used anywhere in a schema, with the place. -/
def Document.Uses (d : Document) (context name : String) : Prop :=
  ∃ e ∈ d, e.2.Uses e.1 context name

/-! ## What definitions denote -/

/-- The type that a target denotes: that of its name, with the collections around it. -/
inductive Target.Denotes (d : Document) : Target → Reference → Prop where
  | named {name : String} {h : Handle} : d.Means name h → Denotes d (.named name) (.named h)
  | collection {arrangement : Arrangement} {element : Target} {r : Reference} {nullable : Bool} :
    Denotes d element r →
    Denotes d (.collection arrangement element nullable) (.collection arrangement r nullable)

/-- The property that a field denotes. -/
structure Field.Denotes (d : Document) (f : Field) (p : Property) : Prop where
  name : p.name = f.name
  wire : p.wire = f.wire.getD f.name
  type : f.target.Denotes d p.type
  required : p.required = f.required
  nullable : p.nullable = f.nullable
  settable : p.settable = !f.readOnly
  carrier : p.carrier = f.carrier
  xmlName : p.xmlName = f.xmlName
  placement : p.placement = .attribute ↔ f.isAttribute = true
  /-- An item name goes before being flattened. -/
  wrapped : ∀ item, f.itemName = some item → p.layout = .wrapped item
  flattened : f.itemName = none → f.isFlattened = true → p.layout = .flattened
  standard : f.itemName = none → f.isFlattened = false → p.layout = .standard

/-- The object type that a definition of one denotes. -/
structure ObjectDefinition.Denotes (d : Document) (o : ObjectDefinition) (t : ObjectType) : Prop where
  base : Option.Rel d.Means o.base t.base
  properties : List.Forall₂ (Field.Denotes d) o.fields t.properties
  discriminator : t.discriminator = o.discriminator
  discriminatorValue : t.discriminatorValue = o.discriminatorValue
  isAbstract : t.isAbstract = o.isAbstract
  rootName : t.rootName = o.rootName
  rootNamespace : t.rootNamespace = o.rootNamespace

/-- The kind of type that a definition denotes. An alias denotes none. -/
inductive Definition.Denotes (d : Document) : Definition → Kind → Prop where
  | object {o : ObjectDefinition} {t : ObjectType} :
    o.Denotes d t → Denotes d (.object o) (.object t)
  | enumeration (e : Enumeration) : Denotes d (.enumeration e) (.enumeration e)

/-- The type that a definition with its name denotes. -/
structure Document.DenotesType (d : Document) (e : String × Definition) (s : Slot) : Prop where
  name : s.name = e.1
  entity : ∃ k, s.entity = some ⟨e.1, k⟩ ∧ e.2.Denotes d k

/-- The open catalogue of what the types of a schema denote, behind the primitives. -/
def Document.Translates (d : Document) (c : Catalogue) : Prop :=
  ∃ slots, List.Forall₂ d.DenotesType d.types slots ∧ c = Catalogue.initial.append slots

/-! ## Looking up -/

variable {d : Document} {c : Catalogue}

theorem Document.mem_types {e : String × Definition} :
    e ∈ d.types ↔ e ∈ d ∧ e.2.isType = true :=
  List.mem_filter

theorem Document.not_unknown_of_mem {name : String} {definition : Definition}
    (h : (name, definition) ∈ d) : ¬ d.Unknown name := fun hu =>
  hu.1 (List.mem_map_of_mem (f := Prod.fst) h)

theorem Document.keys_types_sublist (d : Document) :
    (Table.keys d.types).Sublist (Table.keys d) :=
  List.filter_sublist.map _

theorem mem_names_initial {name : String} :
    name ∈ Catalogue.initial.names ↔ ∃ p : Primitive, p.name = name := by
  have hall : ∀ p : Primitive, p ∈ Primitive.all := fun p => by cases p <;> decide
  simp [Catalogue.names_initial, hall]

theorem slot?_initial (p : Primitive) :
    Catalogue.initial.slot? p.handle = some ⟨p.name, some ⟨p.name, .primitive p⟩⟩ := by
  cases p <;> rfl

theorem ofName?_eq_some_iff {name : String} {p : Primitive} :
    Primitive.ofName? name = some p ↔ p.name = name := by
  refine ⟨fun h => by simpa using List.find?_some h, ?_⟩
  rintro rfl
  cases p <;> rfl

theorem ofName?_eq_none_iff {name : String} :
    Primitive.ofName? name = none ↔ ∀ p : Primitive, p.name ≠ name := by
  simp only [Option.eq_none_iff_forall_ne_some, ne_eq, ofName?_eq_some_iff]

/-- The look-up of a name depends on the index of the catalogue alone. -/
theorem handleOf?_congr {c' : Catalogue} (h : c.index = c'.index) : handleOf? d c = handleOf? d c' := by
  funext name
  rw [handleOf?, handleOf?, Catalogue.handleOf?, Catalogue.handleOf?, h]

/-- A name is that of a type, or another name of a primitive, or not defined. -/
theorem Document.sorts (d : Document) (name : String) :
    (∃ definition, (name, definition) ∈ d.types) ∨ (∃ p, (name, .alias p) ∈ d) ∨
      name ∉ Table.keys d := by
  rcases hf : Table.find? d name with _ | definition
  · exact .inr (.inr (Table.find?_eq_none_iff.1 hf))
  have hmem := Table.mem_of_find? hf
  rcases definition with o | e | p
  · exact .inl ⟨_, mem_types.2 ⟨hmem, rfl⟩⟩
  · exact .inl ⟨_, mem_types.2 ⟨hmem, rfl⟩⟩
  · exact .inr (.inl ⟨p, hmem⟩)

theorem handleOf?_of_mem_types (hd : Table.Ascending d) {name : String} {definition : Definition}
    (h : (name, definition) ∈ d.types) : handleOf? d c name = c.handleOf? name := by
  obtain ⟨hmem, ht⟩ := Document.mem_types.1 h
  rw [handleOf?, (Table.find?_eq_some_iff hd).2 hmem]
  rcases definition with o | e | p
  · rfl
  · rfl
  · cases ht

theorem handleOf?_of_alias (hd : Table.Ascending d) {name : String} {p : Primitive}
    (h : (name, .alias p) ∈ d) : handleOf? d c name = some p.handle := by
  rw [handleOf?, (Table.find?_eq_some_iff hd).2 h]

theorem handleOf?_of_not_mem {name : String} (h : name ∉ Table.keys d) :
    handleOf? d c name = (Primitive.ofName? name).map Primitive.handle := by
  rw [handleOf?, Table.find?_eq_none_iff.2 h]

/-- Where every type is declared, the names without a handle are the unknown ones. -/
theorem handleOf?_eq_none_iff (hd : Table.Ascending d) (hi : c.Indexed)
    (hc : ∀ e ∈ d.types, e.1 ∈ c.names) {name : String} :
    handleOf? d c name = none ↔ d.Unknown name := by
  rcases d.sorts name with ⟨definition, h⟩ | ⟨p, h⟩ | h
  · rw [handleOf?_of_mem_types hd h, hi.handleOf?_eq_none_iff]
    exact iff_of_false (not_not.2 (hc _ h))
      (Document.not_unknown_of_mem (Document.mem_types.1 h).1)
  · rw [handleOf?_of_alias hd h]
    exact iff_of_false (Option.some_ne_none _) (Document.not_unknown_of_mem h)
  · rw [handleOf?_of_not_mem h, Option.map_eq_none_iff, ofName?_eq_none_iff]
    exact (and_iff_right h).symm

/-- The types have their places: the names of the catalogue are those of the primitives and then those
of the types, each once, and the index leads to them. -/
structure Document.Placed (d : Document) (c : Catalogue) : Prop where
  indexed : c.Indexed
  names : c.names = Catalogue.initial.names ++ Table.keys d.types

theorem Document.Placed.handleOf? (hc : d.Placed c) {i : Nat} {name : String}
    {definition : Definition} (hi : d.types[i]? = some (name, definition)) :
    c.handleOf? name = some ⟨8 + i⟩ := by
  have hlength : Catalogue.initial.names.length = 8 := by rw [Catalogue.names_initial]; rfl
  rw [hc.indexed, Catalogue.name?_eq, hc.names,
    List.getElem?_append_right (by simp [hlength])]
  simp [hlength, Table.keys, hi]

/-- **Look-ups follow the meaning of names.** -/
theorem handleOf?_eq_some_iff_means (hd : Table.Ascending d) (hc : d.Placed c) {name : String}
    {h : Handle} : handleOf? d c name = some h ↔ d.Means name h := by
  constructor
  · intro hh
    rcases d.sorts name with ⟨definition, hmem⟩ | ⟨p, hmem⟩ | hnot
    · obtain ⟨i, hi⟩ := List.getElem?_of_mem hmem
      rw [handleOf?_of_mem_types hd hmem, hc.handleOf? hi] at hh
      cases hh
      exact .type hi
    · rw [handleOf?_of_alias hd hmem] at hh
      cases hh
      exact .synonym hmem
    · rw [handleOf?_of_not_mem hnot] at hh
      obtain ⟨p, hp, rfl⟩ := Option.map_eq_some_iff.1 hh
      obtain rfl := ofName?_eq_some_iff.1 hp
      exact .primitive hnot
  · rintro (hi | hmem | hnot)
    · rw [handleOf?_of_mem_types hd (List.mem_of_getElem? hi), hc.handleOf? hi]
    · exact handleOf?_of_alias hd hmem
    · rw [handleOf?_of_not_mem hnot, ofName?_eq_some_iff.2 rfl, Option.map_some]

/-! ## What is made of a definition -/

theorem lookUp_eq_ok_iff {context name : String} {h : Handle} :
    lookUp d c context name = .ok h ↔ handleOf? d c name = some h := by
  rw [lookUp]
  cases handleOf? d c name <;> simp

theorem lookUp_eq_error_iff {context name : String} {e : LoadError} :
    lookUp d c context name = .error e ↔
      handleOf? d c name = none ∧ e = .unknownTarget name context := by
  rw [lookUp]
  cases handleOf? d c name <;> simp [eq_comm]

theorem reference_eq_error_iff {context : String} {t : Target} {e : LoadError} :
    reference d c context t = .error e ↔
      handleOf? d c t.leaf = none ∧ e = .unknownTarget t.leaf context := by
  induction t with
  | named name => rw [reference, map_eq_error_iff, lookUp_eq_error_iff, Target.leaf]
  | collection _ element _ ih => rw [reference, map_eq_error_iff, ih, Target.leaf]

theorem property_eq_error_iff {owner : String} {f : Field} {e : LoadError} :
    property d c owner f = .error e ↔ handleOf? d c f.target.leaf = none ∧
      e = .unknownTarget f.target.leaf (owner ++ "." ++ f.name) := by
  rw [property, bind_eq_error_iff, reference_eq_error_iff]
  simp [pure, Except.pure]

theorem exists_uses_of_object_eq_error {name : String} {o : ObjectDefinition} {e : LoadError}
    (he : object d c name o = .error e) :
    ∃ context used, (Definition.object o).Uses name context used ∧ handleOf? d c used = none ∧
      e = .unknownTarget used context := by
  simp only [object, bind_eq_error_iff, option_mapM_eq_error_iff, mapM_eq_error_iff,
    lookUp_eq_error_iff, property_eq_error_iff] at he
  rcases he with ⟨b, hb, hnone, rfl⟩ | ⟨-, -, ⟨before, f, after, hf, -, hnone, rfl⟩ | ⟨_, -, ⟨⟩⟩⟩
  · exact ⟨name, b, .base hb, hnone, rfl⟩
  · exact ⟨_, _, .field (hf ▸ by simp), hnone, rfl⟩

/-- **Making a type fails only at an unknown name** that its definition uses. -/
theorem exists_uses_of_kind_eq_error {name : String} {definition : Definition} {e : LoadError}
    (he : kind d c name definition = .error e) :
    ∃ context used, definition.Uses name context used ∧ handleOf? d c used = none ∧
      e = .unknownTarget used context := by
  rcases definition with o | _ | _
  · rw [kind, map_eq_error_iff] at he
    exact exists_uses_of_object_eq_error he
  · cases he
  · cases he

/-! ## What is made of a definition is what it denotes -/

section Denotes

variable (hm : ∀ {name : String} {h : Handle}, handleOf? d c name = some h ↔ d.Means name h)

include hm

theorem reference_eq_ok_iff {context : String} {t : Target} {r : Reference} :
    reference d c context t = .ok r ↔ t.Denotes d r := by
  induction t generalizing r with
  | named name =>
    simp only [reference, map_eq_ok_iff, lookUp_eq_ok_iff, hm]
    exact ⟨fun ⟨h, hn, e⟩ => e ▸ .named hn, fun | .named hn => ⟨_, hn, rfl⟩⟩
  | collection _ element _ ih =>
    simp only [reference, map_eq_ok_iff, ih]
    exact ⟨fun ⟨r, hr, e⟩ => e ▸ .collection hr, fun | .collection hr => ⟨_, hr, rfl⟩⟩

theorem property_eq_ok_iff {owner : String} {f : Field} {p : Property} :
    property d c owner f = .ok p ↔ f.Denotes d p := by
  simp only [property, bind_eq_ok_iff, reference_eq_ok_iff hm, pure_eq_ok_iff]
  constructor
  · rintro ⟨type, ht, rfl⟩
    refine ⟨rfl, rfl, ht, rfl, rfl, rfl, rfl, rfl, ?_, ?_, ?_, ?_⟩ <;>
      cases f.isAttribute <;> simp +contextual
  · intro hp
    refine ⟨p.type, hp.type, ?_⟩
    obtain ⟨⟩ := p
    simp only [Property.mk.injEq]
    refine ⟨hp.name.symm, hp.wire.symm, trivial, hp.required.symm, hp.nullable.symm,
      hp.settable.symm, hp.carrier.symm, hp.xmlName.symm, ?_, ?_⟩
    · split
      · rename_i ha
        exact (hp.placement.2 ha).symm
      · rename_i placement _ ha
        cases placement
        · rfl
        · exact absurd (hp.placement.1 rfl) ha
    · rcases hitem : f.itemName with _ | item
      · rcases hflat : f.isFlattened with _ | _
        · exact (hp.standard hitem hflat).symm
        · exact (hp.flattened hitem hflat).symm
      · exact (hp.wrapped item hitem).symm

theorem object_eq_ok_iff {name : String} {o : ObjectDefinition} {t : ObjectType} :
    object d c name o = .ok t ↔ o.Denotes d t := by
  simp only [object, bind_eq_ok_iff, option_mapM_eq_ok_iff, mapM_eq_ok_iff, lookUp_eq_ok_iff, hm,
    property_eq_ok_iff hm, pure_eq_ok_iff]
  constructor
  · rintro ⟨base, hb, properties, hp, rfl⟩
    exact ⟨hb, hp, rfl, rfl, rfl, rfl, rfl⟩
  · rintro ⟨hb, hp, hd, hv, ha, hr, hn⟩
    exact ⟨t.base, hb, t.properties, hp, by rw [← hd, ← hv, ← ha, ← hr, ← hn]⟩

theorem kind_eq_ok_iff {name : String} {definition : Definition} (ht : definition.isType = true)
    {k : Option Kind} :
    kind d c name definition = .ok k ↔ ∃ k', definition.Denotes d k' ∧ k = some k' := by
  rcases definition with o | e | p
  · simp only [kind, map_eq_ok_iff, object_eq_ok_iff hm]
    constructor
    · rintro ⟨t, hd, rfl⟩
      exact ⟨_, .object hd, rfl⟩
    · rintro ⟨_, ⟨hd⟩, rfl⟩
      exact ⟨_, hd, rfl⟩
  · rw [kind, Except.ok.injEq]
    constructor
    · rintro rfl
      exact ⟨_, .enumeration e, rfl⟩
    · rintro ⟨_, ⟨⟩, rfl⟩
      rfl
  · cases ht

end Denotes

/-! ## Uses and meanings -/

theorem Definition.Denotes.isType {definition : Definition} {k : Kind} (h : definition.Denotes d k) :
    definition.isType = true := by
  cases h <;> rfl

theorem Target.Denotes.means {t : Target} {r : Reference} (h : t.Denotes d r) :
    ∃ k, d.Means t.leaf k := by
  induction h with
  | named hn => exact ⟨_, hn⟩
  | collection _ ih => exact ih

theorem Definition.Uses.isType {owner context name : String} {definition : Definition}
    (h : definition.Uses owner context name) : definition.isType = true := by
  cases h <;> rfl

theorem Document.Means.not_unknown {name : String} {h : Handle} (hm : d.Means name h) :
    ¬ d.Unknown name := by
  cases hm with
  | type hi => exact not_unknown_of_mem (mem_types.1 (List.mem_of_getElem? hi)).1
  | synonym hmem => exact not_unknown_of_mem hmem
  | primitive => exact fun hu => hu.2 _ rfl

/-- What a definition uses means something if the definition denotes something. -/
theorem Definition.Denotes.means {definition : Definition} {k : Kind} (h : definition.Denotes d k)
    {owner context name : String} (hu : definition.Uses owner context name) :
    ∃ h, d.Means name h := by
  cases h with
  | object ho =>
    cases hu with
    | base hb =>
      obtain ⟨t, hbase⟩ : ∃ t, Option.Rel d.Means (some name) t := ⟨_, hb ▸ ho.base⟩
      cases hbase with
      | some hm => exact ⟨_, hm⟩
    | field hf =>
      obtain ⟨p, -, hp⟩ := forall₂_exists_left ho.properties hf
      exact hp.type.means
  | enumeration => cases hu

end Marshal.Schema
