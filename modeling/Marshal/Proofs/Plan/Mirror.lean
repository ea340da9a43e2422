import Marshal.Proofs.Plan.Sets

/-!
# Writing and reading mirror each other

A type is planned in one pass over its properties, which fills a list of write steps and a table of
read actions. `Mirrored` says that the two halves of a plan belong together: each step has the one
action that reads back what it writes, and there are no other actions. `planType_mirrored` shows it
of every plan. Which carriers a plan leaves out is said in terms of inheritance
(`mem_plannedProperties_iff`).
-/

namespace Marshal.Catalogue

variable {c : Catalogue} {f : Format} {h : Handle} {o : ObjectType} {plan : TypePlan}
  {p : Property}

/-! ## Replaced carriers -/

/-- Some type that `h` inherits from, and that is below one with the property, has a carrier. -/
def Replaced (c : Catalogue) (h : Handle) (p : Property) : Prop :=
  ∃ a o, c.object? a = some o ∧ p ∈ o.properties ∧
    ∃ b o', c.Inherits h b ∧ c.Below b a ∧ c.object? b = some o' ∧
      ∃ q ∈ o'.properties, q.carrier = true

theorem effectiveProperties_of_base (hc : c.Acyclic) {b : Handle} (ho : c.object? h = some o)
    (hb : c.base? h = some b) :
    c.effectiveProperties h = c.effectiveProperties b ++ o.properties := by
  simp [effectiveProperties, lineage_of_base hc hb, ho, List.filterMap_append, List.flatMap_append]

theorem carrier?_of_base (hc : c.Acyclic) {b : Handle} (ho : c.object? h = some o)
    (hb : c.base? h = some b) :
    c.carrier? h = (o.properties.find? Property.carrier).or (c.carrier? b) := by
  rw [carrier?, lineage_of_base hc hb, List.filterMap_cons_some ho, List.findSome?_cons, carrier?]
  cases o.properties.find? Property.carrier <;> rfl

theorem carrier?_of_base?_eq_none (ho : c.object? h = some o) (hb : c.base? h = none) :
    c.carrier? h = o.properties.find? Property.carrier := by
  rw [carrier?, lineage_of_base?_eq_none hb, List.filterMap_cons_some ho, List.findSome?_cons]
  cases o.properties.find? Property.carrier <;> rfl

/-- Where the names of the properties in effect differ, a property stands in one type only. -/
theorem eq_of_mem_properties (hc : c.Acyclic) {a b : Handle} {oa ob : ObjectType}
    (hn : ((c.effectiveProperties h).map Property.name).Nodup) (ha : c.Inherits h a)
    (hoa : c.object? a = some oa) (hpa : p ∈ oa.properties) (hb : c.Inherits h b)
    (hob : c.object? b = some ob) (hpb : p ∈ ob.properties) : a = b := by
  induction h using hc.induction with
  | step h ih =>
    -- a type above the first is read off its base; the names of the two parts do not meet
    have hself : ∀ {o k ok}, c.object? h = some o → p ∈ o.properties → c.Inherits h k →
        c.object? k = some ok → p ∈ ok.properties → k = h := by
      intro o k ok ho hp hk hok hpk
      rcases inherits_iff.1 hk with rfl | ⟨t, ht, hk⟩
      · rfl
      · rw [effectiveProperties_of_base hc ho ht, List.map_append] at hn
        have hpt := (mem_effectiveProperties hc).2 ⟨k, ok, hk, hok, hpk⟩
        exact absurd (List.mem_map_of_mem hp)
          (List.disjoint_of_nodup_append hn (List.mem_map_of_mem hpt))
    rcases inherits_iff.1 ha with rfl | ⟨t, ht, ha'⟩
    · exact (hself hoa hpa hb hob hpb).symm
    · rcases inherits_iff.1 hb with rfl | ⟨t', ht', hb'⟩
      · exact hself hob hpb ha hoa hpa
      · obtain rfl := Option.some.inj (ht.symm.trans ht')
        obtain ⟨o, ho, -⟩ := base?_eq_some_iff.1 ht
        rw [effectiveProperties_of_base hc ho ht, List.map_append] at hn
        exact ih t ht (List.Nodup.of_append_left hn) ha' hb'

/-- **The carrier in effect** stands in a type below which no type has a carrier. -/
theorem exists_of_carrier? (hc : c.Acyclic) (hb : ∀ h b, c.base? h = some b → ∃ o, c.object? b = some o)
    (ho : c.object? h = some o) (hp : c.carrier? h = some p) :
    ∃ a oa, c.Inherits h a ∧ c.object? a = some oa ∧ p ∈ oa.properties ∧
      ∀ b ob, c.Inherits h b → c.Below b a → c.object? b = some ob →
        ∀ q ∈ ob.properties, q.carrier = false := by
  induction h using hc.induction generalizing o with
  | step h ih =>
    have hown : o.properties.find? Property.carrier = some p → ∃ a oa, c.Inherits h a ∧
        c.object? a = some oa ∧ p ∈ oa.properties ∧ ∀ b ob, c.Inherits h b → c.Below b a →
          c.object? b = some ob → ∀ q ∈ ob.properties, q.carrier = false := fun hf =>
      ⟨h, o, .refl h, ho, List.mem_of_find?_eq_some hf, fun b ob hhb hbh =>
        absurd (Relation.TransGen.trans_right hhb hbh) (hc h)⟩
    rcases hbase : c.base? h with _ | t
    · rw [carrier?_of_base?_eq_none ho hbase] at hp
      exact hown hp
    · rw [carrier?_of_base hc ho hbase, Option.or_eq_some_iff] at hp
      rcases hp with hp | ⟨hnone, hp⟩
      · exact hown hp
      · obtain ⟨ot, hot⟩ := hb h t hbase
        obtain ⟨a, oa, ha, hoa, hpa, hlow⟩ := ih t hbase hot hp
        refine ⟨a, oa, .of_base hbase ha, hoa, hpa, fun b ob hhb hba hob => ?_⟩
        rcases inherits_iff.1 hhb with rfl | ⟨t', ht', hhb⟩
        · obtain rfl := Option.some.inj (ho.symm.trans hob)
          simpa using hnone
        · obtain rfl := Option.some.inj (hbase.symm.trans ht')
          exact hlow b ob hhb hba hob

/-- A type that inherits a carrier has one in effect. -/
theorem carrier?_ne_none (hc : c.Acyclic) (hp : p ∈ c.effectiveProperties h)
    (hpc : p.carrier = true) : c.carrier? h ≠ none := by
  obtain ⟨a, oa, ha, hoa, hpa⟩ := (mem_effectiveProperties hc).1 hp
  rw [carrier?, ne_eq, List.findSome?_eq_none_iff, not_forall]
  refine ⟨oa, fun hno => ?_⟩
  have hnone := hno (List.mem_filterMap.2 ⟨a, (mem_lineage_iff hc).2 ha, hoa⟩)
  exact (List.find?_eq_none.1 hnone) p hpa hpc

/-- A type has at most one carrier of its own. -/
theorem WellFormed.eq_of_own_carrier (W : c.WellFormed) {q : Property} (ho : c.object? h = some o)
    (hp : p ∈ o.properties) (hpc : p.carrier = true) (hq : q ∈ o.properties)
    (hqc : q.carrier = true) : p = q := by
  have hone := W.oneCarrier h o ho
  have hp := List.mem_filter.2 ⟨hp, hpc⟩
  have hq := List.mem_filter.2 ⟨hq, hqc⟩
  generalize o.properties.filter Property.carrier = own at hone hp hq
  rcases own with _ | ⟨r, _ | ⟨t, rs⟩⟩
  · simp at hp
  · rw [List.mem_singleton.1 hp, List.mem_singleton.1 hq]
  · simp at hone

/-- **The properties that a plan covers** are those in effect, without the carriers that a more
derived type replaces. -/
theorem WellFormed.mem_plannedProperties_iff (W : c.WellFormed) (ho : c.object? h = some o)
    (hp : p ∈ c.effectiveProperties h) :
    p ∈ c.plannedProperties h ↔ ¬ (p.carrier = true ∧ c.Replaced h p) := by
  by_cases hpc : p.carrier = true
  · have hcar : p ∈ c.plannedProperties h ↔ c.carrier? h = some p := by
      rw [W.carrier?_eq_some_iff ho, and_iff_left hpc]
    rw [hcar]
    constructor
    · rintro hin ⟨-, a, oa, hoa, hpa, b, ob, hhb, hba, hob, q, hq, hqc⟩
      obtain ⟨a', oa', ha', hoa', hpa', hlow⟩ := exists_of_carrier? W.acyclic W.base ho hin
      obtain rfl := eq_of_mem_properties W.acyclic (W.names h o ho)
        (hhb.trans (inherits_iff_below.2 (.inr hba))) hoa hpa ha' hoa' hpa'
      simp [hlow b ob hhb hba hob q hq] at hqc
    · intro hrep
      obtain ⟨q, hq⟩ := Option.ne_none_iff_exists'.1 (carrier?_ne_none W.acyclic hp hpc)
      obtain ⟨a, oa, ha, hoa, hpa⟩ := (mem_effectiveProperties W.acyclic).1 hp
      obtain ⟨b, ob, hb, hob, hqb, hlow⟩ := exists_of_carrier? W.acyclic W.base ho hq
      have hqc := (mem_of_carrier? hq).2
      have hab : a = b := by
        rcases ha.total hb with hab | hba
        · rcases inherits_iff_below.1 hab with e | hab
          · exact e.symm
          · simp [hlow a oa ha hab hoa p hpa] at hpc
        · rcases inherits_iff_below.1 hba with e | hba
          · exact e
          · exact absurd ⟨hpc, a, oa, hoa, hpa, b, ob, hb, hba, hob, q, hqb, hqc⟩ hrep
      obtain rfl := hab
      obtain rfl := Option.some.inj (hoa.symm.trans hob)
      rw [hq, W.eq_of_own_carrier hoa hpa hpc hqb hqc]
  · rw [mem_plannedProperties]
    simp [hpc, hp]

/-! ## Steps and actions -/

/-- Whether a property is written as an attribute. -/
def isAttribute (f : Format) (p : Property) : Bool :=
  !p.carrier && placementIn f p = .attribute

/-- The order of emission: in markup what is written as attributes comes first. -/
def emissionOrder (f : Format) (ps : List Property) : List Property :=
  match f with
  | .json => ps
  | .xml => ps.filter (isAttribute .xml) ++ ps.filter fun p => !isAttribute .xml p

/-- Whether a property is given when an object is made: it cannot be set later. -/
def isEarly (p : Property) : Bool := !p.carrier && !p.settable

/-- The write step of a property has the one part of the read plan that reads back what it writes:
an action under its name in documents, or, for the carrier, the carrier target. -/
inductive Answered (f : Format) (plan : TypePlan) (p : Property) (st : Step) : Prop where
  | field (a : Action) (plain : p.carrier = false)
    (property : st.property = p.name) (wire : st.wire = wireName f p)
    (placement : st.placement = placementIn f p) (nullable : st.nullable = p.nullable)
    (required : st.required = p.required)
    (action : Table.find? plan.read.actions st.wire = some a)
    (same : a.property = st.property ∧ a.placement = st.placement ∧ a.nullable = st.nullable)
    (emits : st.emission = .value a.shape ∨ ∃ word, st.emission = .discriminator word)
    (only : ∀ key b, Table.find? plan.read.actions key = some b → b.property = st.property →
      key = st.wire)
  | carrier (t : CarrierTarget) (isCarrier : p.carrier = true)
    (property : st.property = p.name) (nullable : st.nullable = p.nullable)
    (target : plan.read.carrier = some t)
    (same : t.property = st.property)
    (emits : st.emission = .entries t.value t.nullable)
    (none : ∀ key b, Table.find? plan.read.actions key = some b → b.property ≠ st.property)

/-- **The two halves of a plan belong together.** -/
structure Mirrored (c : Catalogue) (f : Format) (h : Handle) (plan : TypePlan) : Prop where
  /-- The plan covers the properties in effect, in their order, without replaced carriers. -/
  covered : (c.plannedProperties h).Sublist (c.effectiveProperties h) ∧
    ∀ p ∈ c.effectiveProperties h,
      p ∈ c.plannedProperties h ↔ ¬ (p.carrier = true ∧ c.Replaced h p)
  /-- There is one step for each of them, in the order of emission, and each is read back. -/
  steps : List.Forall₂ (Answered f plan) (emissionOrder f (c.plannedProperties h)) plan.write.steps
  /-- No key is twice in the table, and there are as many as properties that are no carriers. -/
  keys : (Table.keys plan.read.actions).Perm
    ((Property.plain (c.plannedProperties h)).map (wireName f))
  nodup : (Table.keys plan.read.actions).Nodup
  /-- There is a carrier target only for a carrier. -/
  carrier : ∀ t, plan.read.carrier = some t →
    ∃ p ∈ c.plannedProperties h, p.carrier = true ∧ p.name = t.property
  required : plan.read.required =
    ((Property.plain (c.plannedProperties h)).filter Property.required).map fun p =>
      ⟨p.name, wireName f p⟩
  /-- Objects are made with what cannot be set later first, each part in the order of the plan. -/
  order : plan.read.constructionOrder =
    ((c.plannedProperties h).filter isEarly ++
      (c.plannedProperties h).filter fun p => !isEarly p).map Property.name
  permutation : plan.read.constructionOrder.Perm ((c.plannedProperties h).map Property.name)

section Assemble

variable {qs : List Property} {ps : List Planned}

theorem steps_perm (H : List.Forall₂ (c.Contributes f h o) qs ps) :
    List.Forall₂ (fun p st => ∃ x, c.Contributes f h o p x ∧ x.step = st) (emissionOrder f qs)
      (orderSteps f (ps.map Planned.step)) := by
  have hall : List.Forall₂ (fun p st => ∃ x, c.Contributes f h o p x ∧ x.step = st) qs
      (ps.map Planned.step) :=
    List.forall₂_map_right_iff.2 (H.imp fun _ x hx => ⟨x, hx, rfl⟩)
  have hattr : ∀ p st, (∃ x, c.Contributes f h o p x ∧ x.step = st) →
      (isAttribute f p = true ↔ st.placement = .attribute) := by
    rintro p st ⟨x, hx, rfl⟩
    cases hx with
    | field hc => simp [isAttribute, hc, Planned.step, fieldStep]
    | carrier hc => simp [isAttribute, hc, Planned.step, carrierStep]
  cases f with
  | json => exact hall
  | xml =>
    refine List.rel_append (List.rel_filter ?_ hall) (List.rel_filter ?_ hall)
    · intro p st hx
      simpa using hattr p st hx
    · intro p st hx
      simpa [← Bool.not_eq_true] using (hattr p st hx).not

theorem requiredOf_eq (H : List.Forall₂ (c.Contributes f h o) qs ps) :
    requiredOf ps = ((Property.plain qs).filter Property.required).map fun p =>
      ⟨p.name, wireName f p⟩ := by
  induction H with
  | nil => rfl
  | @cons q x qs ps hx _ ih =>
    rw [requiredOf] at ih ⊢
    cases hx with
    | field hc =>
      rw [Property.plain, List.filter_cons_of_pos (by simp [hc])]
      by_cases hr : q.required = true
      · rw [List.filter_cons_of_pos hr, List.map_cons, List.filterMap_cons_some, ih]
        · rfl
        · simp [Planned.required?, fieldStep, hr]
      · rw [List.filter_cons_of_neg hr, List.filterMap_cons_none, ih]
        · rfl
        · simp [Planned.required?, fieldStep, hr]
    | carrier hc =>
      rw [Property.plain, List.filter_cons_of_neg (by simp [hc]), List.filterMap_cons_none rfl, ih]
      rfl

theorem constructionOrderOf_eq (H : List.Forall₂ (c.Contributes f h o) qs ps) :
    constructionOrderOf ps =
      (qs.filter isEarly ++ qs.filter fun p => !isEarly p).map Property.name := by
  have hearly : ∀ p x, c.Contributes f h o p x → (isEarly p = true ↔ x.early = true) := by
    intro p x hx
    cases hx with
    | field hc => cases hs : p.settable <;> simp [isEarly, hc, hs, Planned.early, fieldAction]
    | carrier hc => simp [isEarly, hc, Planned.early]
  have hsplit : List.Forall₂ (c.Contributes f h o) (qs.filter isEarly ++ qs.filter fun p => !isEarly p)
      (ps.filter Planned.early ++ ps.filter fun x => !x.early) := by
    refine List.rel_append (List.rel_filter ?_ H) (List.rel_filter ?_ H)
    · exact fun p x hx => hearly p x hx
    · intro p x hx
      simpa [← Bool.not_eq_true] using (hearly p x hx).not
  rw [constructionOrderOf]
  exact names_eq hsplit

/-- The keys of the actions are the names in documents of the properties that are no carriers. -/
theorem keys_actionsOf_perm (H : List.Forall₂ (c.Contributes f h o) qs ps)
    (hn : ((Property.plain qs).map (wireName f)).Nodup) :
    (Table.keys (actionsOf ps)).Perm ((Property.plain qs).map (wireName f)) := by
  rw [← keys_actions H] at hn ⊢
  refine (List.perm_ext_iff_of_nodup (Table.ascending_ofList _).nodup hn).2 fun key => ?_
  rw [← not_iff_not, ← Table.find?_eq_none_iff, ← Table.find?_eq_none_iff, Table.find?_ofList hn]

/-- What a property of an object type adds to its plan is read back by the plan. -/
theorem Plans.answered (W : c.WellFormed) (ho : c.object? h = some o) (hplan : c.Plans f h o plan)
    (hp : p ∈ c.plannedProperties h) {x : Planned} (hx : c.Contributes f h o p x) :
    Answered f plan p x.step := by
  -- an action for the property named `p.name` is that of `p`
  have hname : ∀ key b, Table.find? plan.read.actions key = some b → b.property = p.name →
      p.carrier = false ∧ key = wireName f p := by
    intro key b hb hbp
    obtain ⟨q, hq, hqc, rfl, s, -, -, rfl⟩ := (hplan.actions key b).1 hb
    obtain rfl := W.eq_of_name ho hq hp hbp
    exact ⟨hqc, rfl⟩
  cases hx with
  | @field s hc hs hf =>
    refine .field (fieldAction f p s) hc rfl rfl rfl rfl rfl
      ((hplan.actions _ _).2 ⟨p, hp, hc, rfl, s, hs, hf, rfl⟩) ⟨rfl, rfl, rfl⟩ ?_
      fun key b hb hbp => (hname key b hb hbp).2
    show c.emissionOf h o p s = .value s ∨ ∃ word, c.emissionOf h o p s = .discriminator word
    rw [emissionOf]
    split
    · exact .inr ⟨_, rfl⟩
    · exact .inl rfl
  | @carrier r s n hc ht hs =>
    refine .carrier ⟨p.name, s, n⟩ hc rfl rfl
      ((hplan.carrier _).2 ⟨p, hp, hc, r, s, n, ht, hs, rfl⟩) rfl rfl fun key b hb hbp => ?_
    simp [(hname key b hb hbp).1] at hc

end Assemble

theorem mem_emissionOrder {ps : List Property} : p ∈ emissionOrder f ps ↔ p ∈ ps := by
  cases f with
  | json => rfl
  | xml => cases h : isAttribute .xml p <;> simp [emissionOrder, h]

/-- **Write plans and read plans mirror each other.** -/
theorem planType_mirrored (hc : c.Reachable) (hp : c.planType f h = .ok plan) :
    c.Mirrored f h plan := by
  obtain ⟨_, hsealed, hp⟩ := Outcome.bind_eq_ok_iff.1 hp
  have W := hc.wellFormed (requireSealed_eq_ok_iff.1 hsealed)
  obtain ⟨name, o, ps, ho, H, rfl⟩ := exists_assemble hp
  have hplan : c.Plans f h o (c.assemble f h name o ps) := plans_assemble W ho H
  have hnodup := W.nodup_wireName f ho
  refine
    { covered := ⟨List.filter_sublist, fun p hp => W.mem_plannedProperties_iff ho hp⟩
      steps := ?_
      keys := keys_actionsOf_perm H hnodup
      nodup := (keys_actionsOf_perm H hnodup).nodup_iff.2 hnodup
      carrier := fun t ht => ?_
      required := requiredOf_eq H
      order := constructionOrderOf_eq H
      permutation := constructionOrderOf_perm H }
  · refine ((List.forall₂_and_left _ _).2 ⟨fun p hp => mem_emissionOrder.1 hp, steps_perm H⟩).imp ?_
    rintro p st ⟨hp, x, hx, rfl⟩
    exact hplan.answered W ho hp hx
  · obtain ⟨p, hp, hpc, r, s, n, -, -, rfl⟩ := (hplan.carrier t).1 ht
    exact ⟨p, hp, hpc, rfl⟩

/-- A circle writes its radius, an attribute, ahead of the kind that it inherits. -/
theorem mirrored_circle : ∃ plan, sealedShapes.planType .xml ⟨9⟩ = .ok plan ∧
    plan.write.steps.map Step.property = ["radius", "kind", "labels", "others"] ∧
      sealedShapes.Mirrored .xml ⟨9⟩ plan := by
  have hs : (sealedShapes.planType .xml ⟨9⟩).toOption.map (fun p => p.write.steps.map Step.property) =
      some ["radius", "kind", "labels", "others"] := by decide
  obtain ⟨plan, hplan, hsteps⟩ := Option.map_eq_some_iff.1 hs
  have hp := Outcome.toOption_eq_some_iff.1 hplan
  exact ⟨plan, hp, hsteps, planType_mirrored reachable_sealedShapes hp⟩

end Marshal.Catalogue
