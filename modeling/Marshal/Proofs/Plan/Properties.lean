import Marshal.Plan.Build
import Marshal.Proofs.Catalogue.Rules

/-!
# The properties a plan covers

Of the properties in effect a plan leaves out the carriers that are replaced. In a well-formed
catalogue the others differ in their names and, the carrier apart, in their names in each format.
-/

namespace Marshal

/-! ## Plain properties -/

theorem Property.mem_plain {ps : List Property} {p : Property} :
    p ∈ Property.plain ps ↔ p ∈ ps ∧ p.carrier = false := by
  rw [Property.plain, List.mem_filter, Bool.not_eq_true']

namespace Catalogue

variable {c : Catalogue}

/-- **The properties in effect** are those of a type and of its ancestors. -/
theorem mem_effectiveProperties (hc : c.Acyclic) {h : Handle} {p : Property} :
    p ∈ c.effectiveProperties h ↔
      ∃ a o, c.Inherits h a ∧ c.object? a = some o ∧ p ∈ o.properties := by
  simp only [effectiveProperties, List.mem_flatMap, List.mem_filterMap, List.mem_reverse,
    mem_lineage_iff hc]
  constructor
  · rintro ⟨o, ⟨a, ha, ho⟩, hp⟩
    exact ⟨a, o, ha, ho, hp⟩
  · rintro ⟨a, o, ha, ho, hp⟩
    exact ⟨o, ⟨a, ha, ho⟩, hp⟩

theorem mem_plannedProperties {h : Handle} {p : Property} :
    p ∈ c.plannedProperties h ↔ p ∈ c.effectiveProperties h ∧
      (p.carrier = false ∨ (c.carrier? h).map Property.name = some p.name) := by
  simp only [plannedProperties, List.mem_filter, Bool.or_eq_true, Bool.not_eq_true', beq_iff_eq]

/-- The carriers apart, what is covered above a type is covered in the type. -/
theorem mem_plannedProperties_of_inherits (hc : c.Acyclic) {h k : Handle} {p : Property}
    (hi : c.Inherits k h) (hp : p ∈ c.plannedProperties h) (hpc : p.carrier = false) :
    p ∈ c.plannedProperties k := by
  obtain ⟨a, o, ha, ho, hpo⟩ := (mem_effectiveProperties hc).1 (mem_plannedProperties.1 hp).1
  exact mem_plannedProperties.2
    ⟨(mem_effectiveProperties hc).2 ⟨a, o, hi.trans ha, ho, hpo⟩, .inl hpc⟩

/-- The carriers apart, a plan covers all properties in effect. -/
theorem plain_plannedProperties (c : Catalogue) (h : Handle) :
    Property.plain (c.plannedProperties h) = Property.plain (c.effectiveProperties h) := by
  rw [Property.plain, Property.plain, plannedProperties, List.filter_filter]
  refine List.filter_congr fun p _ => ?_
  cases p.carrier <;> simp

namespace WellFormed

variable {h : Handle} {o : ObjectType} {p q : Property}

theorem nodup_plannedProperties (W : c.WellFormed) (ho : c.object? h = some o) :
    ((c.plannedProperties h).map Property.name).Nodup :=
  List.Nodup.sublist (List.Sublist.map _ List.filter_sublist) (W.names h o ho)

/-- Planned properties with one name are one property. -/
theorem eq_of_name (W : c.WellFormed) (ho : c.object? h = some o) (hp : p ∈ c.plannedProperties h)
    (hq : q ∈ c.plannedProperties h) (e : p.name = q.name) : p = q :=
  List.inj_on_of_nodup_map (W.nodup_plannedProperties ho) hp hq e

theorem nodup_wireName (W : c.WellFormed) (f : Format) (ho : c.object? h = some o) :
    ((Property.plain (c.plannedProperties h)).map (wireName f)).Nodup := by
  rw [plain_plannedProperties]
  cases f with
  | json => exact W.wires h o ho
  | xml => exact W.xmlWires h o ho

/-- Planned properties that are no carriers and have one name in a format are one property. -/
theorem eq_of_wireName (W : c.WellFormed) {f : Format} (ho : c.object? h = some o)
    (hp : p ∈ c.plannedProperties h) (hpc : p.carrier = false) (hq : q ∈ c.plannedProperties h)
    (hqc : q.carrier = false) (e : wireName f p = wireName f q) : p = q :=
  List.inj_on_of_nodup_map (W.nodup_wireName f ho) (Property.mem_plain.2 ⟨hp, hpc⟩)
    (Property.mem_plain.2 ⟨hq, hqc⟩) e

/-- A plan covers at most one carrier. -/
theorem eq_of_carrier (W : c.WellFormed) (ho : c.object? h = some o)
    (hp : p ∈ c.plannedProperties h) (hpc : p.carrier = true) (hq : q ∈ c.plannedProperties h)
    (hqc : q.carrier = true) : p = q := by
  have hname : ∀ {r}, r ∈ c.plannedProperties h → r.carrier = true →
      (c.carrier? h).map Property.name = some r.name := by
    intro r hr hrc
    simpa [hrc] using (mem_plannedProperties.1 hr).2
  exact W.eq_of_name ho hp hq (Option.some.inj ((hname hp hpc).symm.trans (hname hq hqc)))

/-- A carrier is a mapping. -/
theorem exists_mapping_of_carrier (W : c.WellFormed) (hp : p ∈ c.plannedProperties h)
    (hpc : p.carrier = true) :
    ∃ element nullable, p.type = .collection .mapping element nullable := by
  obtain ⟨a, o', -, ho', hp'⟩ := (mem_effectiveProperties W.acyclic).1 (mem_plannedProperties.1 hp).1
  have hm := W.carrierMapping a o' ho' p hp' hpc
  rcases ht : p.type with k | ⟨_ | _, element, nullable⟩
  · simp [ht, Reference.isMapping] at hm
  · simp [ht, Reference.isMapping] at hm
  · exact ⟨element, nullable, rfl⟩

end WellFormed

/-- The carrier in effect is a property in effect, and the plan covers it. -/
theorem mem_of_carrier? {h : Handle} {p : Property} (hp : c.carrier? h = some p) :
    p ∈ c.plannedProperties h ∧ p.carrier = true := by
  obtain ⟨o, ho, hpo⟩ := List.exists_of_findSome?_eq_some hp
  have hcar : p.carrier = true := List.find?_some hpo
  refine ⟨mem_plannedProperties.2 ⟨?_, .inr (by rw [hp]; rfl)⟩, hcar⟩
  obtain ⟨a, ha, hao⟩ := List.mem_filterMap.1 ho
  exact List.mem_flatMap.2 ⟨o, List.mem_filterMap.2 ⟨a, List.mem_reverse.2 ha, hao⟩,
    List.mem_of_find?_eq_some hpo⟩

/-- **The carrier that a plan covers** is the one in effect. -/
theorem WellFormed.carrier?_eq_some_iff (W : c.WellFormed) {h : Handle} {o : ObjectType}
    {p : Property} (ho : c.object? h = some o) :
    c.carrier? h = some p ↔ p ∈ c.plannedProperties h ∧ p.carrier = true := by
  constructor
  · exact mem_of_carrier?
  · rintro ⟨hp, hpc⟩
    have hname : (c.carrier? h).map Property.name = some p.name := by
      simpa [hpc] using (mem_plannedProperties.1 hp).2
    obtain ⟨q, hq, -⟩ := Option.map_eq_some_iff.1 hname
    obtain ⟨hqp, hqc⟩ := mem_of_carrier? hq
    rw [hq, W.eq_of_carrier ho hp hpc hqp hqc]

end Catalogue

end Marshal
