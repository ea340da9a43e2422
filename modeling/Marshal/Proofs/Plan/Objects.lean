import Marshal.Proofs.Catalogue.Changes
import Marshal.Proofs.Plan.Properties

/-!
# Plans of object types

`Forms` relates references to shapes, and `Contributes` properties to what they add to a plan.
`Plans` says all that is in the plan of an object type, and `planObject_spec` that planning a type
gives such a plan.
-/

namespace Marshal.Catalogue

variable {c : Catalogue}

/-! ## Shapes -/

theorem planned_eq_ok_iff {α : Type} {x : Except CatalogueError α} {a : α} :
    planned x = .ok a ↔ x = .ok a := by
  cases x <;> simp [planned]

theorem planned_resolve_eq_ok_iff {h : Handle} {e : Entity} :
    planned (c.resolve h) = .ok e ↔ c.get? h = some e :=
  planned_eq_ok_iff.trans resolve_eq_ok_iff

/-- A reference whose outermost sequence has a layout has a shape. -/
inductive Forms (c : Catalogue) : Layout → Reference → Shape → Prop where
  | primitive {l : Layout} {h : Handle} {p : Primitive} :
    c.kind? h = some (.primitive p) → Forms c l (.named h) (.primitive p)
  | enumeration {l : Layout} {h : Handle} {e : Enumeration} :
    c.kind? h = some (.enumeration e) → Forms c l (.named h) (.enumeration h)
  | object {l : Layout} {h : Handle} {o : ObjectType} :
    c.object? h = some o → Forms c l (.named h) (.object h)
  | sequence {l : Layout} {r : Reference} {s : Shape} {n : Bool} :
    Forms c .standard r s → Forms c l (.collection .sequence r n) (.sequence s n l)
  | mapping {l : Layout} {r : Reference} {s : Shape} {n : Bool} :
    Forms c .standard r s → Forms c l (.collection .mapping r n) (.mapping s n)

theorem Forms.not_flattened {item : String} {r : Reference} {s : Shape}
    (h : c.Forms (.wrapped item) r s) : s.isFlattened = false := by
  cases h <;> rfl

theorem Forms.not_flattened_of_named {l : Layout} {k : Handle} {s : Shape}
    (h : c.Forms l (.named k) s) : s.isFlattened = false := by
  cases h <;> rfl

theorem Forms.exists_flattened {l : Layout} {r : Reference} {shape : Shape} (hs : c.Forms l r shape)
    (hf : shape.isFlattened = true) : ∃ r' m element, l = .flattened ∧
      r = .collection .sequence r' m ∧ shape = .sequence element m .flattened ∧
        c.Forms .standard r' element := by
  cases hs with
  | @sequence _ r' element m hs =>
    cases l with
    | wrapped => cases hf
    | flattened => exact ⟨r', m, element, rfl, rfl, rfl, hs⟩
  | _ => cases hf

theorem shapeOf_named_eq_ok_iff {l : Layout} {h : Handle} {s : Shape} :
    c.shapeOf l (.named h) = .ok s ↔ c.Forms l (.named h) s := by
  rw [shapeOf, Outcome.bind_eq_ok_iff]
  simp only [planned_resolve_eq_ok_iff]
  have hresolved : ∀ {k}, c.kind? h = some k → ∃ name, c.get? h = some ⟨name, k⟩ :=
    kind?_eq_some_iff.1
  constructor
  · rintro ⟨⟨name, kind⟩, he, hs⟩
    have hk := kind?_eq_some_iff.2 ⟨name, he⟩
    rcases kind with _ | _ | _ <;> obtain rfl := Outcome.pure_eq_ok_iff.1 hs
    · exact .primitive hk
    · exact .enumeration hk
    · exact .object (object?_eq_some_iff.2 hk)
  · rintro (hk | hk | ho)
    · exact (hresolved hk).elim fun _ he => ⟨_, he, rfl⟩
    · exact (hresolved hk).elim fun _ he => ⟨_, he, rfl⟩
    · exact (hresolved (object?_eq_some_iff.1 ho)).elim fun _ he => ⟨_, he, rfl⟩

theorem shapeOf_eq_ok_iff {l : Layout} {r : Reference} {s : Shape} :
    c.shapeOf l r = .ok s ↔ c.Forms l r s := by
  induction r generalizing l s with
  | named h => exact shapeOf_named_eq_ok_iff
  | collection a r n ih =>
    cases a <;> rw [shapeOf, Outcome.bind_eq_ok_iff] <;> constructor
    · rintro ⟨t, ht, hs⟩
      obtain rfl := Outcome.pure_eq_ok_iff.1 hs
      exact .sequence (ih.1 ht)
    · rintro (_ | _ | _ | ht)
      exact ⟨_, ih.2 ht, rfl⟩
    · rintro ⟨t, ht, hs⟩
      obtain rfl := Outcome.pure_eq_ok_iff.1 hs
      exact .mapping (ih.1 ht)
    · rintro (_ | _ | _ | _ | ht)
      exact ⟨_, ih.2 ht, rfl⟩

/-! ## Contributions -/

/-- What the write step of a property emits that is no carrier: the word of the type in the place of
the discriminator of its hierarchy. -/
def emissionOf (c : Catalogue) (h : Handle) (o : ObjectType) (p : Property) (s : Shape) : Emission :=
  if (c.forest.hierarchyOf? h).map Hierarchy.property = some p.name then
    .discriminator o.discriminatorValue
  else .value s

/-- The write step of a property that is no carrier. -/
def fieldStep (c : Catalogue) (f : Format) (h : Handle) (o : ObjectType) (p : Property)
    (s : Shape) : Step :=
  ⟨p.name, wireName f p, c.emissionOf h o p s, placementIn f p, p.required, p.nullable⟩

/-- The read action of a property that is no carrier. -/
def fieldAction (f : Format) (p : Property) (s : Shape) : Action :=
  ⟨p.name, s, if p.settable then .setter else .constructor, p.nullable, placementIn f p⟩

/-- The write step of a carrier. -/
def carrierStep (f : Format) (p : Property) (s : Shape) (nullable : Bool) : Step :=
  ⟨p.name, wireName f p, .entries s nullable, .element, false, p.nullable⟩

/-- What a property of an object type adds to its plan. -/
inductive Contributes (c : Catalogue) (f : Format) (h : Handle) (o : ObjectType) (p : Property) :
    Planned → Prop where
  | field {s : Shape} : p.carrier = false → c.Forms (layoutIn f p) p.type s →
    layoutFault? f p s = none →
    Contributes c f h o p (.field (c.fieldStep f h o p s) (fieldAction f p s))
  | carrier {r : Reference} {s : Shape} {n : Bool} : p.carrier = true →
    p.type = .collection .mapping r n → c.Forms .standard r s →
    Contributes c f h o p (.carrier (carrierStep f p s n) ⟨p.name, s, n⟩)

theorem planField_eq_ok_iff {f : Format} {owner : String} {word : Option (Option String)}
    {p : Property} {x : Planned} :
    c.planField f owner word p = .ok x ↔
      ∃ s, c.Forms (layoutIn f p) p.type s ∧ layoutFault? f p s = none ∧
        x = .field ⟨p.name, wireName f p, word.elim (.value s) .discriminator, placementIn f p,
          p.required, p.nullable⟩ (fieldAction f p s) := by
  rw [planField, Outcome.bind_eq_ok_iff]
  refine exists_congr fun s => ?_
  rw [shapeOf_eq_ok_iff]
  refine and_congr_right fun _ => ?_
  rcases layoutFault? f p s with _ | fault
  · cases word <;>
      exact Outcome.pure_eq_ok_iff.trans ⟨fun e => ⟨rfl, e.symm⟩, fun e => e.2.symm⟩
  · simp [Outcome.throw_ne_ok]

theorem planCarrier_eq_ok_iff {f : Format} {owner : String} {p : Property} {x : Planned} :
    c.planCarrier f owner p = .ok x ↔
      ∃ r s n, p.type = .collection .mapping r n ∧ c.Forms .standard r s ∧
        x = .carrier (carrierStep f p s n) ⟨p.name, s, n⟩ := by
  rw [planCarrier]
  rcases p.type with k | ⟨_ | _, r, n⟩
  · simp
  · simp
  · simp only [Outcome.bind_eq_ok_iff, shapeOf_eq_ok_iff, Outcome.pure_eq_ok_iff,
      Reference.collection.injEq, true_and]
    constructor
    · rintro ⟨s, hs, rfl⟩
      exact ⟨r, s, n, ⟨rfl, rfl⟩, hs, rfl⟩
    · rintro ⟨_, s, _, ⟨rfl, rfl⟩, hs, rfl⟩
      exact ⟨s, hs, rfl⟩

theorem planProperty_eq_ok_iff {f : Format} {h : Handle} {owner : String} {o : ObjectType}
    {p : Property} {x : Planned} :
    c.planProperty f h owner o p = .ok x ↔ c.Contributes f h o p x := by
  rw [planProperty]
  by_cases hc : p.carrier = true
  · rw [if_pos hc, planCarrier_eq_ok_iff]
    constructor
    · rintro ⟨r, s, n, ht, hs, rfl⟩
      exact .carrier hc ht hs
    · rintro (⟨hc', -, -⟩ | ⟨-, ht, hs⟩)
      · simp [hc] at hc'
      · exact ⟨_, _, _, ht, hs, rfl⟩
  · have hc' : p.carrier = false := Bool.eq_false_iff.2 hc
    have hem : ∀ s, Option.elim (if (c.forest.hierarchyOf? h).map Hierarchy.property = some p.name
        then some o.discriminatorValue else none) (.value s) .discriminator =
          c.emissionOf h o p s := fun s => by
      rw [emissionOf]
      split <;> rfl
    rw [if_neg hc, planField_eq_ok_iff]
    simp only [hem]
    constructor
    · rintro ⟨s, hs, hf, rfl⟩
      exact .field hc' hs hf
    · rintro (⟨-, hs, hf⟩ | ⟨hc'', -, -⟩)
      · exact ⟨_, hs, hf, rfl⟩
      · exact absurd hc'' hc

theorem Contributes.step_property {f : Format} {h : Handle} {o : ObjectType} {p : Property}
    {x : Planned} (hx : c.Contributes f h o p x) : x.step.property = p.name := by
  cases hx <;> rfl

theorem Forms.unique {l : Layout} {r : Reference} {s t : Shape} (hs : c.Forms l r s)
    (ht : c.Forms l r t) : s = t :=
  Except.ok.inj ((shapeOf_eq_ok_iff.2 hs).symm.trans (shapeOf_eq_ok_iff.2 ht))

theorem Contributes.unique {f : Format} {h : Handle} {o : ObjectType} {p : Property}
    {x y : Planned} (hx : c.Contributes f h o p x) (hy : c.Contributes f h o p y) : x = y :=
  Except.ok.inj ((planProperty_eq_ok_iff.2 hx).symm.trans
    (@planProperty_eq_ok_iff c f h "" o p y |>.2 hy))

/-! ## Plans -/

/-- **What is in the plan of an object type.** -/
structure Plans (c : Catalogue) (f : Format) (h : Handle) (o : ObjectType) (plan : TypePlan) :
    Prop where
  type : plan.type = h
  lineage : plan.lineage = c.lineage h
  isAbstract : plan.isAbstract = o.isAbstract
  ascending : Table.Ascending plan.read.actions
  actions : ∀ key a, Table.find? plan.read.actions key = some a ↔
    ∃ p ∈ c.plannedProperties h, p.carrier = false ∧ wireName f p = key ∧
      ∃ s, c.Forms (layoutIn f p) p.type s ∧ layoutFault? f p s = none ∧ a = fieldAction f p s
  discriminator : plan.read.discriminator = c.dispatchOf h plan.read.actions
  carrier : ∀ t, plan.read.carrier = some t ↔
    ∃ p ∈ c.plannedProperties h, p.carrier = true ∧
      ∃ r s n, p.type = .collection .mapping r n ∧ c.Forms .standard r s ∧ t = ⟨p.name, s, n⟩
  required : ∀ r, r ∈ plan.read.required ↔
    ∃ p ∈ c.plannedProperties h, p.carrier = false ∧ p.required = true ∧
      r = ⟨p.name, wireName f p⟩
  order : ∀ name, name ∈ plan.read.constructionOrder ↔
    ∃ p ∈ c.plannedProperties h, p.name = name
  nodup_order : plan.read.constructionOrder.Nodup
  steps : ∃ ps, List.Forall₂ (c.Contributes f h o) (c.plannedProperties h) ps ∧
    plan.write.steps = orderSteps f (ps.map Planned.step)

section Assemble

variable {f : Format} {h : Handle} {o : ObjectType} {qs : List Property} {ps : List Planned}

theorem keys_actions (H : List.Forall₂ (c.Contributes f h o) qs ps) :
    Table.keys (ps.filterMap Planned.action?) = (Property.plain qs).map (wireName f) := by
  induction H with
  | nil => rfl
  | @cons q x qs ps hx _ ih =>
    rcases hx with ⟨hc, -, -⟩ | ⟨hc, -, -⟩
    · rw [Property.plain, List.filter_cons_of_pos (by simp [hc])]
      exact congrArg (wireName f q :: ·) ih
    · rw [Property.plain, List.filter_cons_of_neg (by simp [hc])]
      exact ih

theorem find?_actionsOf (H : List.Forall₂ (c.Contributes f h o) qs ps)
    (hn : ((Property.plain qs).map (wireName f)).Nodup) {key : String} {a : Action} :
    Table.find? (actionsOf ps) key = some a ↔
      ∃ p ∈ qs, p.carrier = false ∧ wireName f p = key ∧
        ∃ s, c.Forms (layoutIn f p) p.type s ∧ layoutFault? f p s = none ∧ a = fieldAction f p s := by
  rw [← keys_actions H] at hn
  rw [actionsOf, Table.find?_ofList hn]
  have hmem : ∀ l : List (String × Action), (Table.keys l).Nodup →
      (Table.find? l key = some a ↔ (key, a) ∈ l) := fun l hl =>
    ⟨Table.mem_of_find?, Table.find?_of_mem hl⟩
  rw [hmem _ hn, List.mem_filterMap]
  refine Outcome.exists_mem_congr H fun p _ x hx => ?_
  rcases hx with @⟨s, hc, hs, hf⟩ | ⟨hc, -, -⟩
  · simp only [hc, true_and, Planned.action?, fieldStep, Option.some.injEq, Prod.mk.injEq]
    constructor
    · rintro ⟨rfl, t, ht, -, rfl⟩
      exact ⟨rfl, by rw [hs.unique ht]⟩
    · rintro ⟨rfl, rfl⟩
      exact ⟨rfl, s, hs, hf, rfl⟩
  · simp [hc, Planned.action?]

theorem carrierOf_eq_some_iff (H : List.Forall₂ (c.Contributes f h o) qs ps)
    (hone : ∀ p ∈ qs, p.carrier = true → ∀ q ∈ qs, q.carrier = true → p = q) {t : CarrierTarget} :
    carrierOf ps = some t ↔
      ∃ p ∈ qs, p.carrier = true ∧
        ∃ r s n, p.type = .collection .mapping r n ∧ c.Forms .standard r s ∧
          t = ⟨p.name, s, n⟩ := by
  have hmem : ∀ t, t ∈ ps.filterMap Planned.target? ↔
      ∃ p ∈ qs, ∃ st, c.Contributes f h o p (.carrier st t) := by
    intro t
    rw [List.mem_filterMap]
    refine Outcome.exists_mem_congr H fun p _ x hx => ?_
    constructor
    · rintro ⟨st, ht⟩
      rw [hx.unique ht]
      rfl
    · intro ht
      rcases x with ⟨st, a⟩ | ⟨st, t'⟩
      · cases ht
      · obtain rfl := Option.some.inj ht
        exact ⟨st, hx⟩
  have hall : ∀ t ∈ ps.filterMap Planned.target?, ∀ u ∈ ps.filterMap Planned.target?, t = u := by
    intro t ht u hu
    obtain ⟨p, hp, st, hpt⟩ := (hmem t).1 ht
    obtain ⟨q, hq, su, hqu⟩ := (hmem u).1 hu
    have hpc : p.carrier = true := by cases hpt; assumption
    have hqc : q.carrier = true := by cases hqu; assumption
    obtain rfl := hone p hp hpc q hq hqc
    exact (Planned.carrier.inj (hpt.unique hqu)).2
  have hlast : carrierOf ps = some t ↔ t ∈ ps.filterMap Planned.target? := by
    rw [carrierOf]
    constructor
    · exact List.mem_of_getLast?
    · intro ht
      obtain ⟨u, hu⟩ := Option.isSome_iff_exists.1
        (List.getLast?_isSome.2 (List.ne_nil_of_mem ht))
      rw [hu, hall t ht u (List.mem_of_getLast? hu)]
  rw [hlast, hmem]
  refine exists_congr fun p => and_congr_right fun _ => ?_
  constructor
  · rintro ⟨st, hst⟩
    cases hst with
    | carrier hc ht hs => exact ⟨hc, _, _, _, ht, hs, rfl⟩
  · rintro ⟨hc, r, s, n, ht, hs, rfl⟩
    exact ⟨_, .carrier hc ht hs⟩

theorem mem_requiredOf (H : List.Forall₂ (c.Contributes f h o) qs ps) {r : RequiredField} :
    r ∈ requiredOf ps ↔
      ∃ p ∈ qs, p.carrier = false ∧ p.required = true ∧ r = ⟨p.name, wireName f p⟩ := by
  rw [requiredOf, List.mem_filterMap]
  refine Outcome.exists_mem_congr H fun p _ x hx => ?_
  rcases hx with ⟨hc, -, -⟩ | ⟨hc, -, -⟩
  · by_cases hr : p.required = true
    · simp [Planned.required?, fieldStep, hc, hr, eq_comm]
    · simp [Planned.required?, fieldStep, hr]
  · simp [Planned.required?, hc]

/-- The steps of the contributions are for their properties. -/
theorem names_eq (H : List.Forall₂ (c.Contributes f h o) qs ps) :
    ps.map (fun x => x.step.property) = qs.map Property.name := by
  induction H with
  | nil => rfl
  | cons hx _ ih => rw [List.map_cons, List.map_cons, hx.step_property, ih]

theorem constructionOrderOf_perm (H : List.Forall₂ (c.Contributes f h o) qs ps) :
    (constructionOrderOf ps).Perm (qs.map Property.name) := by
  rw [← names_eq H]
  exact (List.filter_append_perm Planned.early ps).map _

/-- A plan assembled from the contributions of the planned properties. -/
theorem plans_assemble (W : c.WellFormed) (ho : c.object? h = some o) {name : String}
    (H : List.Forall₂ (c.Contributes f h o) (c.plannedProperties h) ps) :
    c.Plans f h o (c.assemble f h name o ps) where
  type := rfl
  lineage := rfl
  isAbstract := rfl
  ascending := Table.ascending_ofList _
  actions _ _ := find?_actionsOf H (W.nodup_wireName f ho)
  discriminator := rfl
  carrier _ := carrierOf_eq_some_iff H fun _ hp hpc _ hq hqc => W.eq_of_carrier ho hp hpc hq hqc
  required _ := mem_requiredOf H
  order _ := (constructionOrderOf_perm H).mem_iff.trans List.mem_map
  nodup_order := (constructionOrderOf_perm H).nodup_iff.2 (W.nodup_plannedProperties ho)
  steps := ⟨ps, H, rfl⟩

end Assemble

theorem mem_orderSteps {f : Format} {steps : List Step} {st : Step} :
    st ∈ orderSteps f steps ↔ st ∈ steps := by
  cases f with
  | json => rfl
  | xml => by_cases h : st.placement = .attribute <;> simp [orderSteps, h]

/-- What holds of the steps of a plan holds of what each covered property adds. -/
theorem Plans.forall_steps {f : Format} {h : Handle} {o : ObjectType} {plan : TypePlan}
    (hplan : c.Plans f h o plan) {P : Step → Prop} :
    (∀ st ∈ plan.write.steps, P st) ↔
      ∀ p ∈ c.plannedProperties h, ∀ x, c.Contributes f h o p x → P x.step := by
  obtain ⟨ps, H, hsteps⟩ := hplan.steps
  rw [hsteps]
  simp only [mem_orderSteps, List.forall_mem_map]
  constructor
  · intro hall p hp x hx
    obtain ⟨y, hy, hpy⟩ := Outcome.forall₂_exists_left H hp
    rw [hx.unique hpy]
    exact hall y hy
  · intro hall x hx
    obtain ⟨p, hp, hpx⟩ := Outcome.forall₂_exists_right H hx
    exact hall p hp x hpx

/-- Each covered property adds something to the plan. -/
theorem Plans.exists_contributes {f : Format} {h : Handle} {o : ObjectType} {plan : TypePlan}
    (hplan : c.Plans f h o plan) {p : Property} (hp : p ∈ c.plannedProperties h) :
    ∃ x, c.Contributes f h o p x := by
  obtain ⟨ps, H, -⟩ := hplan.steps
  obtain ⟨x, -, hx⟩ := Outcome.forall₂_exists_left H hp
  exact ⟨x, hx⟩

/-- A covered property that is no carrier has a shape, and an action. -/
theorem Plans.action_of_mem {f : Format} {h : Handle} {o : ObjectType} {plan : TypePlan}
    (hplan : c.Plans f h o plan) {p : Property} (hp : p ∈ c.plannedProperties h)
    (hc : p.carrier = false) :
    ∃ s, c.Forms (layoutIn f p) p.type s ∧ layoutFault? f p s = none ∧
      Table.find? plan.read.actions (wireName f p) = some (fieldAction f p s) := by
  obtain ⟨ps, H, -⟩ := hplan.steps
  obtain ⟨x, -, hx⟩ := Outcome.forall₂_exists_left H hp
  cases hx with
  | field _ hs hf => exact ⟨_, hs, hf, (hplan.actions _ _).2 ⟨p, hp, hc, rfl, _, hs, hf, rfl⟩⟩
  | carrier hc' => simp [hc] at hc'

/-- A carrier that is covered is the target of the plan. -/
theorem Plans.carrier_of_mem {f : Format} {h : Handle} {o : ObjectType} {plan : TypePlan}
    (hplan : c.Plans f h o plan) {p : Property} (hp : p ∈ c.plannedProperties h)
    (hc : p.carrier = true) :
    ∃ r s n, p.type = .collection .mapping r n ∧ c.Forms .standard r s ∧
      plan.read.carrier = some ⟨p.name, s, n⟩ := by
  obtain ⟨ps, H, -⟩ := hplan.steps
  obtain ⟨x, -, hx⟩ := Outcome.forall₂_exists_left H hp
  cases hx with
  | field hc' => simp [hc] at hc'
  | carrier _ ht hs => exact ⟨_, _, _, ht, hs, (hplan.carrier _).2 ⟨p, hp, hc, _, _, _, ht, hs, rfl⟩⟩

/-- What planning an object type assembles. -/
theorem exists_assemble {f : Format} {h : Handle} {plan : TypePlan}
    (hp : c.planObject f h = .ok plan) : ∃ name o ps, c.object? h = some o ∧
      List.Forall₂ (c.Contributes f h o) (c.plannedProperties h) ps ∧
        plan = c.assemble f h name o ps := by
  obtain ⟨⟨name, kind⟩, he, hp⟩ := Outcome.bind_eq_ok_iff.1 hp
  have hk := kind?_eq_some_iff.2 ⟨name, planned_resolve_eq_ok_iff.1 he⟩
  rcases kind with _ | _ | o
  · exact absurd hp Outcome.throw_ne_ok
  · exact absurd hp Outcome.throw_ne_ok
  · have ho := object?_eq_some_iff.2 hk
    obtain ⟨ps, hps, hp⟩ := Outcome.bind_eq_ok_iff.1 hp
    obtain rfl := Outcome.pure_eq_ok_iff.1 hp
    exact ⟨name, o, ps, ho, (Outcome.mapM_eq_ok_iff.1 hps).imp fun _ _ => planProperty_eq_ok_iff.1, rfl⟩

/-- A plan bears the name of its type. -/
theorem name_of_planObject (hn : c.Carried) {f : Format} {h : Handle} {plan : TypePlan}
    (hp : c.planObject f h = .ok plan) : plan.name = c.nameOf h := by
  obtain ⟨⟨name, kind⟩, he, hp⟩ := Outcome.bind_eq_ok_iff.1 hp
  have hname := hn.nameOf_eq (planned_resolve_eq_ok_iff.1 he)
  rcases kind with _ | _ | o
  · exact absurd hp Outcome.throw_ne_ok
  · exact absurd hp Outcome.throw_ne_ok
  · obtain ⟨ps, -, hp⟩ := Outcome.bind_eq_ok_iff.1 hp
    obtain rfl := Outcome.pure_eq_ok_iff.1 hp
    exact hname.symm

/-- **Planning an object type** gives a plan of it. -/
theorem planObject_spec (W : c.WellFormed) {f : Format} {h : Handle} {plan : TypePlan}
    (hp : c.planObject f h = .ok plan) : ∃ o, c.object? h = some o ∧ c.Plans f h o plan := by
  obtain ⟨name, o, ps, ho, H, rfl⟩ := exists_assemble hp
  exact ⟨o, ho, plans_assemble W ho H⟩

/-- What is in the plan of an enumeration. -/
theorem planEnumeration_eq_ok_iff (hn : c.Carried) {h : Handle} {p : EnumPlan} :
    c.planEnumeration h = .ok p ↔
      ∃ e, c.kind? h = some (.enumeration e) ∧
        p = ⟨h, c.nameOf h, e.members, e.caseSensitive, e.isOpen⟩ := by
  rw [planEnumeration, Outcome.bind_eq_ok_iff]
  simp only [planned_resolve_eq_ok_iff]
  constructor
  · rintro ⟨⟨name, _ | e | _⟩, he, hp⟩
    · exact absurd hp Outcome.throw_ne_ok
    · obtain rfl := Outcome.pure_eq_ok_iff.1 hp
      exact ⟨e, kind?_eq_some_iff.2 ⟨name, he⟩, by rw [hn.nameOf_eq he]⟩
    · exact absurd hp Outcome.throw_ne_ok
  · rintro ⟨e, hk, rfl⟩
    exact ⟨⟨c.nameOf h, .enumeration e⟩, hn.get?_of_kind? hk, rfl⟩

end Marshal.Catalogue
