import Marshal.Proofs.Plan.Sets
import Marshal.Proofs.Value.Canonical

/-!
# The choice of concrete types

The words a plan dispatches on are those of the types of the hierarchy at and below the declared
type (`find?_variants`). The plan of a declared type looks for the word where the plan of a type
below it has the discriminator (`exists_dispatch`) and looks for it itself (`exists_dispatch_self`),
and the latter plan writes it there (`emissionOf_eq`).
-/

namespace Marshal.Catalogue

variable {c : Catalogue} {f : Format} {s : PlanSet} {h k : Handle} {w : String}

theorem Governs.exists_object {r : Handle} (g : c.Governs r h) : ∃ o, c.object? h = some o := by
  obtain ⟨d, o, ho, -⟩ := g.2.1
  rcases inherits_iff.1 g.1 with rfl | ⟨b, hb, -⟩
  · exact ⟨o, ho⟩
  · obtain ⟨o', ho', -⟩ := base?_eq_some_iff.1 hb
    exact ⟨o', ho'⟩

/-- What a dispatch looks at and selects from. -/
theorem dispatchOf_eq_some_iff {actions : Table String Action} {d : Dispatch} :
    c.dispatchOf h actions = some d ↔
      ∃ y, c.forest.hierarchyOf? h = some y ∧ c.variantsFor h ≠ [] ∧
        ∃ wire a, List.find? (fun e => e.2.property == y.property) actions = some (wire, a) ∧
          d = ⟨y.property, wire, a.placement, c.variantsFor h⟩ := by
  rw [dispatchOf, Option.bind_eq_bind, Option.bind_eq_some_iff]
  refine exists_congr fun y => and_congr_right fun _ => ?_
  by_cases hv : c.variantsFor h = []
  · simp [hv]
  · have he : (c.variantsFor h).isEmpty = false := by simpa using hv
    simp only [he, Bool.false_eq_true, if_false, Option.bind_eq_bind, Option.bind_eq_some_iff, ne_eq,
      hv, not_false_eq_true, true_and]
    constructor
    · rintro ⟨⟨wire, a⟩, hf, hd⟩
      exact ⟨wire, a, hf, (Option.some.inj hd).symm⟩
    · rintro ⟨wire, a, hf, rfl⟩
      exact ⟨(wire, a), hf, rfl⟩

namespace PlannedBy

theorem mem_walk (P : c.PlannedBy f s) {o : ObjectType} (ho : c.object? h = some o) :
    h ∈ c.topDown.reverse :=
  List.mem_reverse.2 ((mem_topDown_iff P.wellFormed.acyclic P.wellFormed.base).2 ⟨o, ho⟩)

/-- The hierarchy of a governed type. -/
theorem hierarchyOf? (P : c.PlannedBy f s) {r : Handle} (g : c.Governs r h) :
    ∃ y, c.forest.hierarchyOf? h = some y ∧ Describes c c.topDown.reverse r y := by
  obtain ⟨o, ho⟩ := g.exists_object
  exact P.grown.hierarchyOf? (P.mem_walk ho) g

/-- The hierarchy of a type, if it has one, is that of what governs it. -/
theorem of_hierarchyOf? (P : c.PlannedBy f s) {y : Hierarchy}
    (hy : c.forest.hierarchyOf? h = some y) :
    ∃ r, c.Governs r h ∧ Describes c c.topDown.reverse r y := by
  obtain ⟨r, hr, -⟩ := Forest.hierarchyOf?_eq_some_iff.1 hy
  have g := ((P.grown.member h r).1 hr).2
  obtain ⟨z, hz, hdesc⟩ := P.hierarchyOf? g
  obtain rfl := Option.some.inj (hy.symm.trans hz)
  exact ⟨r, g, hdesc⟩

/-- **The words that select a type at or below a declared one.** -/
theorem find?_variantsFor (P : c.PlannedBy f s) :
    Table.find? (c.variantsFor h) w = some k ↔
      (∃ r, c.Governs r h ∧ c.Governs r k) ∧ c.word? k = some w ∧ c.Inherits k h := by
  rw [variantsFor]
  rcases hy : c.forest.hierarchyOf? h with _ | y
  · simp only [Table.find?_nil, reduceCtorEq, false_iff, not_and]
    rintro ⟨r, g, -⟩
    obtain ⟨z, hz, -⟩ := P.hierarchyOf? g
    simp [hy] at hz
  · obtain ⟨r, g, hdesc⟩ := P.of_hierarchyOf? hy
    simp only [Table.find?_eq_some_iff (hdesc.ascending.filter _), List.mem_filter,
      Catalogue.isSubtype_iff P.wellFormed.acyclic, ← Table.find?_eq_some_iff hdesc.ascending, hdesc.variants]
    constructor
    · rintro ⟨⟨-, gk, hw⟩, hi⟩
      exact ⟨⟨r, g, gk⟩, hw, hi⟩
    · rintro ⟨⟨r', g', gk⟩, hw, hi⟩
      obtain rfl := g.unique g'
      obtain ⟨o, ho⟩ := gk.exists_object
      exact ⟨⟨P.mem_walk ho, gk, hw⟩, hi⟩

/-- A dispatch selects types at or below the declared one, in its hierarchy. -/
theorem selects_of_dispatchOf (P : c.PlannedBy f s) {actions : Table String Action} {d : Dispatch}
    (hd : c.dispatchOf h actions = some d) (hk : Table.find? d.variants w = some k) :
    c.Selects h k := by
  obtain ⟨y, -, -, wire, a, -, rfl⟩ := dispatchOf_eq_some_iff.1 hd
  obtain ⟨⟨r, gh, gk⟩, -, hi⟩ := P.find?_variantsFor.1 hk
  exact .inr ⟨r, gh, gk, hi⟩

/-- The property of a hierarchy, which every governed type has. -/
theorem exists_discriminator (P : c.PlannedBy f s) {r : Handle} {d : String} (g : c.Governs r h)
    (hd : c.Names r d) :
    ∃ p ∈ c.plannedProperties h, p.name = d ∧ p.carrier = false ∧ c.Discriminates p := by
  obtain ⟨p, hp, hn, hdis⟩ := P.wellFormed.discriminable r d hd g.2.2
  obtain ⟨a, o, ha, ho, hpo⟩ := (mem_effectiveProperties P.wellFormed.acyclic).1 hp
  have heff : p ∈ c.effectiveProperties h :=
    (mem_effectiveProperties P.wellFormed.acyclic).2 ⟨a, o, g.1.trans ha, ho, hpo⟩
  have hc : p.carrier = false := by
    refine Bool.eq_false_iff.2 fun hc => ?_
    have hmap := P.wellFormed.carrierMapping a o ho p hpo hc
    obtain ⟨-, -, k, hk, -⟩ := hdis
    simp [hk, Reference.isMapping] at hmap
  exact ⟨p, mem_plannedProperties.2 ⟨heff, .inl hc⟩, hn, hc, hdis⟩

/-- **The dispatch of a declared type** on the word of a type below it in its hierarchy. -/
theorem exists_dispatch (P : c.PlannedBy f s) {r : Handle} (g : c.Governs r h)
    (gk : c.Governs r k) (hi : c.Inherits k h) (hw : c.word? k = some w) {o : ObjectType}
    {plan : TypePlan} (hplan : c.Plans f h o plan) :
    ∃ d, plan.read.discriminator = some d ∧ Table.find? d.variants w = some k ∧
      ∀ p ∈ c.plannedProperties k, c.Names r p.name →
        d.wire = wireName f p ∧ d.placement = placementIn f p := by
  obtain ⟨y, hy, hdesc⟩ := P.hierarchyOf? g
  obtain ⟨p, hp, hn, hc, -⟩ := P.exists_discriminator g hdesc.property
  obtain ⟨shape, hs, hf, hact⟩ := hplan.action_of_mem hp hc
  have hvariant := P.find?_variantsFor.2 ⟨⟨r, g, gk⟩, hw, hi⟩
  have hne : c.variantsFor h ≠ [] := by
    intro he
    simp [he, Table.find?_nil] at hvariant
  obtain ⟨⟨wire, a⟩, hfind⟩ : ∃ e, List.find? (fun e => e.2.property == y.property)
      plan.read.actions = some e := by
    refine Option.isSome_iff_exists.1 (List.find?_isSome.2 ⟨_, Table.mem_of_find? hact, ?_⟩)
    exact beq_iff_eq.2 hn
  obtain ⟨q, hq, hqc, rfl, t, -, -, rfl⟩ := (hplan.actions wire a).1
    ((Table.find?_eq_some_iff hplan.ascending).2 (List.mem_of_find?_eq_some hfind))
  have hqn : q.name = y.property := beq_iff_eq.1 (List.find?_some
    (p := fun e : String × Action => e.2.property == y.property) hfind)
  refine ⟨⟨y.property, wireName f q, placementIn f q, c.variantsFor h⟩, ?_, hvariant, ?_⟩
  · rw [hplan.discriminator]
    exact dispatchOf_eq_some_iff.2 ⟨y, hy, hne, _, _, hfind, rfl⟩
  · intro p' hp' hd'
    obtain ⟨o', ho'⟩ := gk.exists_object
    have hqk : q ∈ c.plannedProperties k :=
      mem_plannedProperties_of_inherits P.wellFormed.acyclic hi hq hqc
    obtain rfl := P.wellFormed.eq_of_name ho' hp' hqk
      (by rw [hqn]; exact hd'.unique hdesc.property)
    exact ⟨rfl, rfl⟩

/-- **What a plan dispatches on** are the words of the types at and below its own. -/
theorem find?_variants (P : c.PlannedBy f s) {o : ObjectType} {plan : TypePlan}
    (hplan : c.Plans f h o plan) {d : Dispatch} (hd : plan.read.discriminator = some d) :
    Table.find? d.variants w = some k ↔ c.Inherits k h ∧ c.word? k = some w := by
  rw [hplan.discriminator] at hd
  obtain ⟨y, hy, -, -, -, -, rfl⟩ := dispatchOf_eq_some_iff.1 hd
  obtain ⟨r, g, -⟩ := P.of_hierarchyOf? hy
  rw [P.find?_variantsFor]
  constructor
  · rintro ⟨-, hw, hi⟩
    exact ⟨hi, hw⟩
  · rintro ⟨hi, hw⟩
    exact ⟨⟨r, g, g.of_inherits hi⟩, hw, hi⟩

/-- **All types of a hierarchy look for the word in one place**: the plan of a type that a word
selects dispatches on the same field, and the word selects the type itself. -/
theorem exists_dispatch_self (P : c.PlannedBy f s) {o o' : ObjectType} {plan plan' : TypePlan}
    (hplan : c.Plans f h o plan) (hplan' : c.Plans f k o' plan') {d : Dispatch}
    (hd : plan.read.discriminator = some d) (hk : Table.find? d.variants w = some k) :
    ∃ d', plan'.read.discriminator = some d' ∧ Table.find? d'.variants w = some k ∧
      d'.wire = d.wire ∧ d'.placement = d.placement := by
  obtain ⟨hi, hw⟩ := (P.find?_variants hplan hd).1 hk
  obtain ⟨y, hy, -⟩ := dispatchOf_eq_some_iff.1 (hplan.discriminator.symm.trans hd)
  obtain ⟨r, g, hdesc⟩ := P.of_hierarchyOf? hy
  have gk := g.of_inherits hi
  obtain ⟨p, hp, hn, -⟩ := P.exists_discriminator gk hdesc.property
  have hnames : c.Names r p.name := hn ▸ hdesc.property
  obtain ⟨e, he, -, hplace⟩ := P.exists_dispatch g gk hi hw hplan
  obtain ⟨d', hd', hk', hplace'⟩ := P.exists_dispatch gk gk (.refl k) hw hplan'
  obtain rfl := Option.some.inj (hd.symm.trans he)
  obtain ⟨hwire, hpl⟩ := hplace p hp hnames
  obtain ⟨hwire', hpl'⟩ := hplace' p hp hnames
  exact ⟨d', hd', hk', hwire'.trans hwire.symm, hpl'.trans hpl.symm⟩

/-- **The property that a plan dispatches on**, which every type at or below the declared one has in
the place where the word is looked for. -/
theorem exists_dispatched (P : c.PlannedBy f s) {o : ObjectType} {plan : TypePlan}
    (hplan : c.Plans f h o plan) {d : Dispatch} (hd : plan.read.discriminator = some d) :
    ∃ p, p.name = d.property ∧ p.carrier = false ∧ c.Discriminates p ∧ wireName f p = d.wire ∧
      placementIn f p = d.placement ∧ ∀ k, c.Inherits k h → p ∈ c.plannedProperties k := by
  obtain ⟨y, hy, -, wire, a, hfind, rfl⟩ :=
    dispatchOf_eq_some_iff.1 (hplan.discriminator.symm.trans hd)
  obtain ⟨p, hp, hc, rfl, shape, -, -, rfl⟩ := (hplan.actions wire a).1
    ((Table.find?_eq_some_iff hplan.ascending).2 (List.mem_of_find?_eq_some hfind))
  have hn : p.name = y.property := beq_iff_eq.1 (List.find?_some
    (p := fun e : String × Action => e.2.property == y.property) hfind)
  obtain ⟨r, g, hdesc⟩ := P.of_hierarchyOf? hy
  obtain ⟨o', ho'⟩ := g.exists_object
  obtain ⟨q, hq, hqn, -, hdis⟩ := P.exists_discriminator g hdesc.property
  obtain rfl := P.wellFormed.eq_of_name ho' hq hp (hqn.trans hn.symm)
  exact ⟨q, hn, hc, hdis, rfl, rfl, fun k hk =>
    mem_plannedProperties_of_inherits P.wellFormed.acyclic hk hq hc⟩

/-- A type outside of all hierarchies is read without a look at a word. -/
theorem discriminator_eq_none (P : c.PlannedBy f s) (g : ∀ r, ¬ c.Governs r h) {o : ObjectType}
    {plan : TypePlan} (hplan : c.Plans f h o plan) : plan.read.discriminator = none := by
  rw [hplan.discriminator]
  refine Option.eq_none_iff_forall_ne_some.2 fun d hd => ?_
  obtain ⟨y, hy, -⟩ := dispatchOf_eq_some_iff.1 hd
  obtain ⟨r, gr, -⟩ := P.of_hierarchyOf? hy
  exact g r gr

/-- **What a type writes for a property**: its word for the discriminator of its hierarchy, and the
value for any other. -/
theorem emissionOf_eq (P : c.PlannedBy f s) {o : ObjectType} (ho : c.object? h = some o)
    (p : Property) (shape : Shape) :
    ((∃ r, c.Governs r h ∧ c.Names r p.name) ∧
        c.emissionOf h o p shape = .discriminator (c.word? h)) ∨
      ((∀ r, c.Governs r h → ¬ c.Names r p.name) ∧ c.emissionOf h o p shape = .value shape) := by
  have hword : o.discriminatorValue = c.word? h := by
    rw [word?, ho, Option.bind_some]
  rw [emissionOf, hword]
  split
  · rename_i hy
    obtain ⟨y, hy, hp⟩ := Option.map_eq_some_iff.1 hy
    obtain ⟨r, g, hdesc⟩ := P.of_hierarchyOf? hy
    exact .inl ⟨⟨r, g, hp ▸ hdesc.property⟩, rfl⟩
  · rename_i hy
    refine .inr ⟨fun r g hd => hy ?_, rfl⟩
    obtain ⟨y, hy', hdesc⟩ := P.hierarchyOf? g
    rw [hy', Option.map_some, hd.unique hdesc.property]

end PlannedBy

end Marshal.Catalogue
