import Marshal.Proofs.Plan.Dispatch
import Marshal.Proofs.Plan.Mirror

/-!
# Plans along inheritance

A value that is declared as a type may be of any type below it: its word is looked for with the plan
of the declared type, and then it is read with the plan of its own. Each plan is made by itself, from
the lineage of its type; `planAll_extending` says that they fit, as `Extending`: the plan of a type
goes on where the plan of any type above it ends.
-/

namespace Marshal.Catalogue

variable {c : Catalogue} {f : Format} {s : PlanSet} {sub sup : Handle}

/-- **The plan of a type takes up the plan of a type above it.** -/
structure Extending (c : Catalogue) (sub sup : Handle) (p q : TypePlan) : Prop where
  /-- What is in effect above comes first. -/
  properties : c.effectiveProperties sup <+: c.effectiveProperties sub
  /-- What is read above is read the same way under the same name. -/
  actions : ∀ key a, Table.find? q.read.actions key = some a → Table.find? p.read.actions key = some a
  /-- What is required above is required first. -/
  required : q.read.required <+: p.read.required
  /-- If both look for a word they do so in one place, and the words of the lower type are those of
  the upper that select it or a type below it. -/
  discriminator : ∀ d e, q.read.discriminator = some d → p.read.discriminator = some e →
    e.property = d.property ∧ e.wire = d.wire ∧ e.placement = d.placement ∧
      ∀ word k, Table.find? e.variants word = some k ↔
        Table.find? d.variants word = some k ∧ c.Inherits k sub

/-- What is in effect above a type comes first in the type: each base is a prefix. -/
theorem effectiveProperties_prefix (hc : c.Acyclic) (hi : c.Inherits sub sup) :
    c.effectiveProperties sup <+: c.effectiveProperties sub := by
  induction hi using Relation.ReflTransGen.head_induction_on with
  | refl => exact List.prefix_refl _
  | head hb _ ih =>
    obtain ⟨o, ho, -⟩ := base?_eq_some_iff.1 hb
    rw [effectiveProperties_of_base hc ho hb]
    exact ih.trans (List.prefix_append _ _)

/-- What a plan requires, in its order. -/
theorem required_of_planObject {h : Handle} {plan : TypePlan} (hp : c.planObject f h = .ok plan) :
    plan.read.required = ((Property.plain (c.effectiveProperties h)).filter Property.required).map
      fun p => ⟨p.name, wireName f p⟩ := by
  obtain ⟨name, o, ps, -, H, rfl⟩ := exists_assemble hp
  rw [← plain_plannedProperties]
  exact requiredOf_eq H

/-- An action does not depend on the type whose plan it is in. -/
theorem Plans.find?_actions_of_inherits {o uo : ObjectType} {p q : TypePlan} (hc : c.Acyclic)
    (hi : c.Inherits sub sup) (hp : c.Plans f sub o p) (hq : c.Plans f sup uo q) {key : String}
    {a : Action} (ha : Table.find? q.read.actions key = some a) :
    Table.find? p.read.actions key = some a := by
  obtain ⟨x, hx, hxc, hkey, shape⟩ := (hq.actions key a).1 ha
  exact (hp.actions key a).2 ⟨x, mem_plannedProperties_of_inherits hc hi hx hxc, hxc, hkey, shape⟩

namespace PlannedBy

/-- One hierarchy governs a type and what is below it, so their plans look for the word of one
property. -/
theorem property_eq_of_inherits (P : c.PlannedBy f s) {o uo : ObjectType} {p q : TypePlan}
    (hi : c.Inherits sub sup) (hp : c.Plans f sub o p) (hq : c.Plans f sup uo q) {d e : Dispatch}
    (hd : q.read.discriminator = some d) (he : p.read.discriminator = some e) :
    e.property = d.property := by
  obtain ⟨y, hy, -, -, -, -, rfl⟩ := dispatchOf_eq_some_iff.1 (hq.discriminator.symm.trans hd)
  obtain ⟨z, hz, -, -, -, -, rfl⟩ := dispatchOf_eq_some_iff.1 (hp.discriminator.symm.trans he)
  obtain ⟨r, g, hdesc⟩ := P.of_hierarchyOf? hy
  obtain ⟨r', g', hdesc'⟩ := P.of_hierarchyOf? hz
  obtain rfl := (g.of_inherits hi).unique g'
  exact hdesc'.property.unique hdesc.property

/-- The plan of a type takes up the plan of a type above it. -/
theorem extending (P : c.PlannedBy f s) {p q : TypePlan} (hi : c.Inherits sub sup)
    (hp : s.type? sub = some p) (hq : s.type? sup = some q) : c.Extending sub sup p q := by
  have hc := P.wellFormed.acyclic
  obtain ⟨o, ho, hplans⟩ := P.plans hp
  obtain ⟨uo, -, uplans⟩ := P.plans hq
  have hfirst := effectiveProperties_prefix hc hi
  refine
    { properties := hfirst
      actions := fun key a ha => hplans.find?_actions_of_inherits hc hi uplans ha
      required := ?_
      discriminator := fun d e hd he => ?_ }
  · rw [required_of_planObject ((P.type sub p).1 hp).2, required_of_planObject ((P.type sup q).1 hq).2]
    exact ((hfirst.filter _).filter _).map _
  · -- the property that either plan dispatches on is in effect below, where names are unique
    obtain ⟨x, hxn, -, -, hxw, hxp, hx⟩ := P.exists_dispatched uplans hd
    obtain ⟨z, hzn, -, -, hzw, hzp, hz⟩ := P.exists_dispatched hplans he
    have hname := P.property_eq_of_inherits hi hplans uplans hd he
    obtain rfl := P.wellFormed.eq_of_name ho (hz sub (.refl sub)) (hx sub hi)
      (hzn.trans (hname.trans hxn.symm))
    refine ⟨hname, hzw.symm.trans hxw, hzp.symm.trans hxp, fun word k => ?_⟩
    rw [P.find?_variants hplans he, P.find?_variants uplans hd]
    constructor
    · rintro ⟨hk, hw⟩
      exact ⟨⟨hk.trans hi, hw⟩, hk⟩
    · rintro ⟨⟨-, hw⟩, hk⟩
      exact ⟨hk, hw⟩

end PlannedBy

/-- **The plan of a type extends the plans of its bases.** Where planning succeeds, an object type
and a type that it inherits from both have plans, and the former takes up the latter. -/
theorem planAll_extending (hc : c.Reachable) {cancelled : Bool}
    (hs : c.planAll f cancelled = .ok s) {o : ObjectType} (ho : c.object? sub = some o)
    (hi : c.Inherits sub sup) :
    ∃ p q, s.type? sub = some p ∧ s.type? sup = some q ∧ c.Extending sub sup p q := by
  have P := planAll_spec hc hs
  obtain ⟨uo, huo⟩ := object?_of_inherits P.wellFormed.base ho hi
  obtain ⟨p, hp⟩ := P.planned sub o ho
  obtain ⟨q, hq⟩ := P.planned sup uo huo
  exact ⟨p, q, hp, hq, P.extending hi hp hq⟩

/-- The plan of a circle takes up that of a shape, and both look for a word. -/
theorem planAll_extending_circle : ∃ p q, (shapePlans .xml).type? ⟨9⟩ = some p ∧
    (shapePlans .xml).type? ⟨8⟩ = some q ∧ p.read.discriminator.isSome = true ∧
      q.read.discriminator.isSome = true ∧ sealedShapes.Extending ⟨9⟩ ⟨8⟩ p q := by
  obtain ⟨o, ho⟩ := governs_circle.exists_object
  obtain ⟨p, q, hp, hq, h⟩ :=
    planAll_extending reachable_sealedShapes (planAll_sealedShapes .xml) ho governs_circle.1
  have hlooks : ∀ k ∈ [(⟨8⟩ : Handle), ⟨9⟩], ((shapePlans .xml).type? k).any
      (fun plan => plan.read.discriminator.isSome) = true := by decide
  have hlow := hlooks ⟨9⟩ (by decide)
  have hup := hlooks ⟨8⟩ (by decide)
  rw [hp] at hlow
  rw [hq] at hup
  exact ⟨p, q, hp, hq, hlow, hup, h⟩

end Marshal.Catalogue
