import Marshal.Proofs.Plan.Sets

/-!
# What cannot be planned

In a sealed catalogue every reference has a shape and every carrier is a mapping, so what can still
keep a type from being planned is what markup cannot do with one of its properties (`Misfit`). It is
reported for the first type that has such a property, which may have inherited it, and for the first
such property of that type (`FirstMisfit`). Plans for JSON are always made.
-/

namespace Marshal

/-- Whether a reference is to a sequence. -/
def Reference.isSequence : Reference → Bool
  | .collection .sequence _ _ => true
  | _ => false

namespace Catalogue

variable {c : Catalogue}

/-- The values of a reference are scalars: those of a primitive type or of an enumeration. -/
def IsScalar (c : Catalogue) (r : Reference) : Prop :=
  ∃ k, r = .named k ∧
    ((∃ p, c.kind? k = some (.primitive p)) ∨ ∃ e, c.kind? k = some (.enumeration e))

/-- What markup cannot do with a property: write what is no scalar as an attribute, and, where that
is not what is asked for, lay out as siblings what is no sequence. -/
inductive Misfit (c : Catalogue) (p : Property) : LayoutFault → Prop where
  | structured : p.placement = .attribute → ¬ c.IsScalar p.type → Misfit c p .structuredAttribute
  | flattened : (p.placement = .attribute → c.IsScalar p.type) → p.layout = .flattened →
    p.type.isSequence = false → Misfit c p .flattenedNonSequence

/-- The first property in effect on a type, carriers apart, that does not fit into markup. -/
def FirstMisfit (c : Catalogue) (h : Handle) (p : Property) (fault : LayoutFault) : Prop :=
  ∃ before after, Property.plain (c.effectiveProperties h) = before ++ p :: after ∧
    (∀ q ∈ before, ∀ g, ¬ c.Misfit q g) ∧ c.Misfit p fault

/-- Some property in effect on a type, carriers apart, does not fit into markup. -/
def Misfits (c : Catalogue) (h : Handle) : Prop :=
  ∃ p fault, p ∈ c.effectiveProperties h ∧ p.carrier = false ∧ c.Misfit p fault

/-! ## Properties that do not fit -/

/-- A list with an element that has a property has a first one. -/
theorem exists_first {α : Type} {P : α → Prop} {l : List α} (h : ∃ a ∈ l, P a) :
    ∃ before a after, l = before ++ a :: after ∧ (∀ x ∈ before, ¬ P x) ∧ P a := by
  classical
  obtain ⟨a, ha⟩ := Option.isSome_iff_exists.1
    (List.find?_isSome.2 (h.imp fun a ha => ⟨ha.1, decide_eq_true ha.2⟩))
  obtain ⟨hp, before, after, hl, hbefore⟩ := List.find?_eq_some_iff_append.1 ha
  exact ⟨before, a, after, hl, fun x hx => by simpa using hbefore x hx, of_decide_eq_true hp⟩

theorem misfits_iff {h : Handle} : c.Misfits h ↔ ∃ p fault, c.FirstMisfit h p fault := by
  constructor
  · rintro ⟨p, fault, hp, hc, hm⟩
    obtain ⟨before, q, after, hl, hbefore, g, hg⟩ :=
      exists_first (P := fun q => ∃ g, c.Misfit q g) ⟨p, Property.mem_plain.2 ⟨hp, hc⟩, fault, hm⟩
    exact ⟨q, g, before, after, hl, fun r hr f hf => hbefore r hr ⟨f, hf⟩, hg⟩
  · rintro ⟨p, fault, before, after, hl, -, hm⟩
    have hp : p ∈ Property.plain (c.effectiveProperties h) := by simp [hl]
    exact ⟨p, fault, (Property.mem_plain.1 hp).1, (Property.mem_plain.1 hp).2, hm⟩

theorem Forms.isScalar_iff {l : Layout} {r : Reference} {s : Shape} (hs : c.Forms l r s) :
    s.isScalar = true ↔ c.IsScalar r := by
  cases hs with
  | primitive hk => exact iff_of_true rfl ⟨_, rfl, .inl ⟨_, hk⟩⟩
  | enumeration hk => exact iff_of_true rfl ⟨_, rfl, .inr ⟨_, hk⟩⟩
  | object ho =>
    refine iff_of_false (by simp [Shape.isScalar]) ?_
    rintro ⟨k, e, ⟨p, hk⟩ | ⟨n, hk⟩⟩ <;> cases e <;> simp [object?_eq_some_iff.1 ho] at hk
  | sequence => exact iff_of_false (by simp [Shape.isScalar]) fun ⟨_, e, _⟩ => nomatch e
  | mapping => exact iff_of_false (by simp [Shape.isScalar]) fun ⟨_, e, _⟩ => nomatch e

theorem Forms.isSequence_eq {l : Layout} {r : Reference} {s : Shape} (hs : c.Forms l r s) :
    s.isSequence = r.isSequence := by
  cases hs <;> rfl

/-- What is reported of a shape is what markup cannot do with the property. -/
theorem layoutFault?_eq_some_iff {p : Property} {s : Shape} {fault : LayoutFault}
    (hs : c.Forms (layoutIn .xml p) p.type s) :
    layoutFault? .xml p s = some fault ↔ c.Misfit p fault := by
  have hscalar : (!s.isScalar) = true ↔ ¬ c.IsScalar p.type := by
    rw [← hs.isScalar_iff, Bool.not_eq_true', Bool.not_eq_true]
  have hsequence : (!s.isSequence) = true ↔ p.type.isSequence = false := by
    rw [hs.isSequence_eq, Bool.not_eq_true']
  rw [layoutFault?]
  constructor
  · intro h
    split at h
    · rename_i ha
      cases h
      exact .structured ha.1 (hscalar.1 ha.2)
    · rename_i ha
      split at h
      · rename_i hf
        cases h
        exact .flattened (fun hp => by_contra fun hn => ha ⟨hp, hscalar.2 hn⟩) hf.1
          (hsequence.1 hf.2)
      · cases h
  · rintro (⟨ha, hn⟩ | ⟨ha, hf, hq⟩)
    · rw [if_pos ⟨ha, hscalar.2 hn⟩]
    · rw [if_neg fun h => hscalar.1 h.2 (ha h.1), if_pos ⟨hf, hsequence.2 hq⟩]

/-! ## Planning one type -/

namespace WellFormed

variable {h : Handle} {o : ObjectType} {p : Property}

/-- A reference to declared types has a shape. -/
theorem exists_forms (W : c.WellFormed) (l : Layout) {r : Reference}
    (hr : ∀ k ∈ r.handles, k.index < c.size) : ∃ s, c.Forms l r s := by
  induction r generalizing l with
  | named k =>
    obtain ⟨slot, hslot⟩ : ∃ slot, c.slot? k = some slot :=
      ⟨_, Array.getElem?_eq_getElem (hr k (by simp [Reference.handles]))⟩
    obtain ⟨kind, hkind⟩ := Option.isSome_iff_exists.1 (W.defined k slot hslot)
    have hk : c.kind? k = some kind := by rw [kind?, hslot, Option.bind_some, hkind]
    cases kind with
    | primitive p => exact ⟨_, .primitive hk⟩
    | enumeration e => exact ⟨_, .enumeration hk⟩
    | object o => exact ⟨_, .object (object?_eq_some_iff.2 hk)⟩
  | collection a r n ih =>
    obtain ⟨s, hs⟩ := ih .standard hr
    cases a with
    | sequence => exact ⟨_, .sequence hs⟩
    | mapping => exact ⟨_, .mapping hs⟩

/-- A property in effect has a shape. -/
theorem exists_forms_of_mem (W : c.WellFormed) (l : Layout) (hp : p ∈ c.effectiveProperties h) :
    ∃ s, c.Forms l p.type s := by
  obtain ⟨a, o', -, ho, hpo⟩ := (mem_effectiveProperties W.acyclic).1 hp
  exact W.exists_forms l (W.declared a o' ho p hpo)

/-- A carrier adds to a plan in every format. -/
theorem exists_contributes_of_carrier (W : c.WellFormed) (f : Format)
    (hp : p ∈ c.plannedProperties h) (hc : p.carrier = true) : ∃ x, c.Contributes f h o p x := by
  obtain ⟨element, nullable, ht⟩ := W.exists_mapping_of_carrier hp hc
  obtain ⟨s, hs⟩ := W.exists_forms_of_mem .standard (mem_plannedProperties.1 hp).1
  rw [ht] at hs
  cases hs with
  | mapping hs => exact ⟨_, .carrier hc ht hs⟩

/-- A property that is planned for JSON always adds to the plan. -/
theorem exists_contributes_json (W : c.WellFormed) (hp : p ∈ c.plannedProperties h) :
    ∃ x, c.Contributes .json h o p x := by
  cases hc : p.carrier with
  | true => exact W.exists_contributes_of_carrier .json hp hc
  | false =>
    obtain ⟨s, hs⟩ := W.exists_forms_of_mem (layoutIn .json p) (mem_plannedProperties.1 hp).1
    exact ⟨_, .field hc hs rfl⟩

/-- A property that is planned for markup is refused exactly when it is no carrier and does not
fit. -/
theorem planProperty_eq_error_iff (W : c.WellFormed) {owner : String} {e : PlanError}
    (hp : p ∈ c.plannedProperties h) :
    c.planProperty .xml h owner o p = .error e ↔
      p.carrier = false ∧ ∃ fault, c.Misfit p fault ∧ e = .invalidLayout owner p.name fault := by
  cases hc : p.carrier with
  | true =>
    obtain ⟨x, hx⟩ := W.exists_contributes_of_carrier (o := o) .xml hp hc
    simp [planProperty_eq_ok_iff.2 hx]
  | false =>
    obtain ⟨s, hs⟩ := W.exists_forms_of_mem (layoutIn .xml p) (mem_plannedProperties.1 hp).1
    have hshape := shapeOf_eq_ok_iff.2 hs
    simp only [← layoutFault?_eq_some_iff hs, true_and, planProperty, hc, Bool.false_eq_true, if_false,
      planField, hshape, bind, Except.bind]
    rcases layoutFault? .xml p s with _ | fault
    · simp [pure, Except.pure]
    · simp [throw, throwThe, MonadExceptOf.throw, eq_comm]

theorem exists_planProperty (W : c.WellFormed) {owner : String} (hp : p ∈ c.plannedProperties h) :
    (∃ x, c.planProperty .xml h owner o p = .ok x) ↔
      (p.carrier = false → ∀ fault, ¬ c.Misfit p fault) := by
  rw [Outcome.exists_eq_ok_iff]
  simp only [W.planProperty_eq_error_iff hp]
  constructor
  · exact fun hall hc fault hm => hall ⟨_, hc, fault, hm, rfl⟩
  · rintro hall ⟨e, hc, fault, hm, -⟩
    exact hall hc fault hm

end WellFormed

/-- Planning an object type is planning its properties. -/
theorem planObject_eq (hn : c.Carried) {f : Format} {h : Handle} {o : ObjectType}
    (ho : c.object? h = some o) :
    c.planObject f h = (do
      let ps ← (c.plannedProperties h).mapM (c.planProperty f h (c.nameOf h) o)
      return c.assemble f h (c.nameOf h) o ps) := by
  have hr : planned (c.resolve h) = .ok ⟨c.nameOf h, .object o⟩ :=
    planned_resolve_eq_ok_iff.2 (hn.get?_of_kind? (object?_eq_some_iff.1 ho))
  rw [planObject, hr]
  rfl

/-- **An object type is planned for JSON** whatever its properties. -/
theorem exists_planObject_json (W : c.WellFormed) (hn : c.Carried) {h : Handle} {o : ObjectType}
    (ho : c.object? h = some o) : ∃ plan, c.planObject .json h = .ok plan := by
  obtain ⟨ps, hps⟩ := Outcome.exists_forall₂ (l := c.plannedProperties h)
    fun p hp => W.exists_contributes_json (o := o) hp
  refine ⟨c.assemble .json h (c.nameOf h) o ps, ?_⟩
  rw [planObject_eq hn ho]
  exact Outcome.bind_eq_ok_iff.2
    ⟨ps, Outcome.mapM_eq_ok_iff.2 (hps.imp fun _ _ => planProperty_eq_ok_iff.2), rfl⟩

/-- **An object type is refused by markup** for its first property that does not fit. Carriers that
are replaced are not planned, but they are no reason to refuse either. -/
theorem planObject_eq_error_iff (W : c.WellFormed) (hn : c.Carried) {h : Handle} {o : ObjectType}
    {e : PlanError} (ho : c.object? h = some o) :
    c.planObject .xml h = .error e ↔
      ∃ p fault, c.FirstMisfit h p fault ∧ e = .invalidLayout (c.nameOf h) p.name fault := by
  have hpure : ∀ ps, (pure (c.assemble .xml h (c.nameOf h) o ps) : Except PlanError TypePlan) ≠
      .error e := fun _ he => nomatch he
  rw [planObject_eq hn ho, Outcome.bind_eq_error_iff]
  simp only [hpure, and_false, exists_false, or_false, Outcome.mapM_eq_error_iff, FirstMisfit,
    ← plain_plannedProperties]
  constructor
  · rintro ⟨before, p, after, hl, hbefore, he⟩
    obtain ⟨hc, fault, hm, rfl⟩ := (W.planProperty_eq_error_iff (by simp [hl])).1 he
    refine ⟨p, fault, ⟨Property.plain before, Property.plain after, ?_, fun q hq g => ?_, hm⟩, rfl⟩
    · simp [hl, Property.plain, hc]
    · obtain ⟨hq, hqc⟩ := Property.mem_plain.1 hq
      exact (W.exists_planProperty (by simp [hl, hq])).1 (hbefore q hq) hqc g
  · rintro ⟨p, fault, ⟨_, _, hl, hbefore, hm⟩, rfl⟩
    obtain ⟨before, rest, hsplit, rfl, hrest⟩ := List.filter_eq_append_iff.1 hl
    obtain ⟨carriers, after, rfl, hcarriers, hc, -⟩ := List.filter_eq_cons_iff.1 hrest
    have hmem : ∀ {q}, q ∈ before ++ carriers ∨ q = p → q ∈ c.plannedProperties h := fun hq => by
      simp only [hsplit, List.mem_append, List.mem_cons] at hq ⊢
      tauto
    refine ⟨before ++ carriers, p, after, by simp [hsplit], fun q hq => ?_, ?_⟩
    · refine (W.exists_planProperty (hmem (.inl hq))).2 fun hqc => ?_
      rcases List.mem_append.1 hq with hq | hq
      · exact hbefore q (Property.mem_plain.2 ⟨hq, hqc⟩)
      · exact absurd hqc (by simpa using hcarriers q hq)
    · exact (W.planProperty_eq_error_iff (hmem (.inr rfl))).2 ⟨by simpa using hc, fault, hm, rfl⟩

theorem exists_planObject_iff (W : c.WellFormed) (hn : c.Carried) {h : Handle} {o : ObjectType}
    (ho : c.object? h = some o) :
    (∃ plan, c.planObject .xml h = .ok plan) ↔ ¬ c.Misfits h := by
  rw [Outcome.exists_eq_ok_iff, misfits_iff]
  simp only [planObject_eq_error_iff W hn ho]
  constructor
  · exact fun hall ⟨p, fault, hm⟩ => hall ⟨_, p, fault, hm, rfl⟩
  · rintro hall ⟨e, p, fault, hm, -⟩
    exact hall ⟨p, fault, hm⟩

/-! ## Planning all types -/

theorem planType_eq (hs : c.isSealed = true) {f : Format} {h : Handle} :
    c.planType f h = c.planObject f h := by
  rw [planType, requireSealed, if_pos hs]
  rfl

theorem exists_planEnumeration (hn : c.Carried) {h : Handle} {e : Enumeration}
    (he : c.kind? h = some (.enumeration e)) : ∃ plan, c.planEnumeration h = .ok plan :=
  ⟨_, (planEnumeration_eq_ok_iff hn).2 ⟨e, he, rfl⟩⟩

theorem exists_enumerations (hn : c.Carried) :
    ∃ enums, c.enumerations.mapM c.planEnumeration = .ok enums := by
  obtain ⟨enums, H⟩ := Outcome.exists_forall₂ (l := c.enumerations) fun h hh =>
    exists_planEnumeration hn (mem_enumerations.1 hh).choose_spec
  exact ⟨enums, Outcome.mapM_eq_ok_iff.2 H⟩

/-- Enumerations are always planned, so a plan set fails as its object types do. -/
theorem planAll_eq_error_iff (hn : c.Carried) (hs : c.isSealed = true) {f : Format} {e : PlanError} :
    c.planAll f = .error e ↔ c.objects.mapM (c.planObject f) = .error e := by
  obtain ⟨enums, henums⟩ := exists_enumerations hn
  rw [planAll, requireSealed, if_pos hs]
  simp only [Bool.false_eq_true, if_false, henums, bind, Except.bind]
  cases c.objects.mapM (c.planObject f) <;> simp [pure, Except.pure]

/-- The object types are in the order of their handles. -/
theorem pairwise_objects (c : Catalogue) :
    c.objects.Pairwise fun h k => h.index < k.index :=
  (List.Pairwise.map Handle.mk (fun _ _ h => h) List.pairwise_lt_range).filter _

/-- What comes before an object type are those with lower handles. -/
theorem mem_before_iff {before after : List Handle} {h : Handle}
    (hl : c.objects = before ++ h :: after) {k : Handle} :
    k ∈ before ↔ k ∈ c.objects ∧ k.index < h.index := by
  have hp := c.pairwise_objects
  rw [hl, List.pairwise_append] at hp
  obtain ⟨-, hafter, hcross⟩ := hp
  rw [hl, List.mem_append, List.mem_cons]
  constructor
  · exact fun hk => ⟨.inl hk, hcross k hk h List.mem_cons_self⟩
  · rintro ⟨hk | rfl | hk, hlt⟩
    · exact hk
    · omega
    · have := List.rel_of_pairwise_cons hafter hk
      omega

/-- **A plan set for JSON** is always made. -/
theorem exists_planAll_json (W : c.WellFormed) (hn : c.Carried) (hs : c.isSealed = true) :
    ∃ s, c.planAll .json = .ok s := by
  obtain ⟨types, H⟩ := Outcome.exists_forall₂ (l := c.objects) fun h hh =>
    exists_planObject_json W hn (mem_objects.1 hh).choose_spec
  rw [Outcome.exists_eq_ok_iff]
  simp [planAll_eq_error_iff hn hs, Outcome.mapM_eq_ok_iff.2 H]

/-- **A plan set for markup is refused** for the first object type, by handle, that has a property
that does not fit, and for the first such property of it. -/
theorem planAll_xml_eq_error_iff (W : c.WellFormed) (hn : c.Carried) (hs : c.isSealed = true)
    {e : PlanError} :
    c.planAll .xml = .error e ↔ ∃ h o p fault, c.object? h = some o ∧
      (∀ k o', c.object? k = some o' → k.index < h.index → ¬ c.Misfits k) ∧
        c.FirstMisfit h p fault ∧ e = .invalidLayout (c.nameOf h) p.name fault := by
  rw [planAll_eq_error_iff hn hs, Outcome.mapM_eq_error_iff]
  constructor
  · rintro ⟨before, h, after, hl, hbefore, he⟩
    obtain ⟨o, ho⟩ : ∃ o, c.object? h = some o := mem_objects.1 (by simp [hl])
    obtain ⟨p, fault, hm, rfl⟩ := (planObject_eq_error_iff W hn ho).1 he
    refine ⟨h, o, p, fault, ho, fun k o' hk hlt => ?_, hm, rfl⟩
    exact (exists_planObject_iff W hn hk).1
      (hbefore k ((mem_before_iff hl).2 ⟨mem_objects.2 ⟨o', hk⟩, hlt⟩))
  · rintro ⟨h, o, p, fault, ho, hfirst, hm, rfl⟩
    obtain ⟨before, after, hl⟩ := List.append_of_mem (mem_objects.2 ⟨o, ho⟩)
    refine ⟨before, h, after, hl, fun k hk => ?_,
      (planObject_eq_error_iff W hn ho).2 ⟨p, fault, hm, rfl⟩⟩
    obtain ⟨hk, hlt⟩ := (mem_before_iff hl).1 hk
    obtain ⟨o', ho'⟩ := mem_objects.1 hk
    exact (exists_planObject_iff W hn ho').2 (hfirst k o' ho' hlt)

/-- **When a sealed catalogue cannot be planned.** For JSON it always can. For markup it cannot
exactly when some object type has a property in effect, no carrier, that does not fit, and the error
is about the first such type by handle and its first such property; planned by itself, in whatever
order, each type fails for its own first such property, and no enumeration ever fails. -/
theorem planAll_refusal (hc : c.Reachable) (hs : c.isSealed = true) :
    (∃ s, c.planAll .json = .ok s) ∧
    ((∃ e, c.planAll .xml = .error e) ↔ ∃ h o, c.object? h = some o ∧ c.Misfits h) ∧
    (∀ e, c.planAll .xml = .error e ↔ ∃ h o p fault, c.object? h = some o ∧
      (∀ k o', c.object? k = some o' → k.index < h.index → ¬ c.Misfits k) ∧
        c.FirstMisfit h p fault ∧ e = .invalidLayout (c.nameOf h) p.name fault) ∧
    (∀ h o, c.object? h = some o →
      (∃ plan, c.planType .json h = .ok plan) ∧
      ∀ e, c.planType .xml h = .error e ↔
        ∃ p fault, c.FirstMisfit h p fault ∧ e = .invalidLayout (c.nameOf h) p.name fault) ∧
    ∀ h e, c.kind? h = some (.enumeration e) → ∃ plan, c.planEnum h = .ok plan := by
  have W := hc.wellFormed hs
  have hn := hc.carried
  refine ⟨exists_planAll_json W hn hs, ?_, fun e => planAll_xml_eq_error_iff W hn hs,
    fun h o ho => ⟨?_, fun e => ?_⟩, fun h e he => ?_⟩
  · simp only [planAll_eq_error_iff hn hs, Outcome.mapM_eq_error_iff]
    constructor
    · rintro ⟨e, before, h, after, hl, -, he⟩
      obtain ⟨o, ho⟩ : ∃ o, c.object? h = some o := mem_objects.1 (by simp [hl])
      obtain ⟨p, fault, hm, -⟩ := (planObject_eq_error_iff W hn ho).1 he
      exact ⟨h, o, ho, misfits_iff.2 ⟨p, fault, hm⟩⟩
    · rintro ⟨h, o, ho, hm⟩
      -- The first of the types that misfit, since the error is about that one.
      obtain ⟨before, k, after, hl, hbefore, hk⟩ :=
        exists_first (P := c.Misfits) ⟨h, mem_objects.2 ⟨o, ho⟩, hm⟩
      obtain ⟨o', ho'⟩ : ∃ o, c.object? k = some o := mem_objects.1 (by simp [hl])
      obtain ⟨p, fault, hp⟩ := misfits_iff.1 hk
      refine ⟨_, before, k, after, hl, fun x hx => ?_,
        (planObject_eq_error_iff W hn ho').2 ⟨p, fault, hp, rfl⟩⟩
      obtain ⟨ox, hox⟩ : ∃ o, c.object? x = some o := mem_objects.1 (by simp [hl, hx])
      exact (exists_planObject_iff W hn hox).2 (hbefore x hx)
  · rw [planType_eq hs]
    exact exists_planObject_json W hn ho
  · rw [planType_eq hs]
    exact planObject_eq_error_iff W hn ho
  · rw [planEnum, requireSealed, if_pos hs]
    exact exists_planEnumeration hn he

/-- Badges are cards, and declared before them. A card has a holder, to be laid out as siblings; a
badge also has marks, to be written as an attribute. -/
def badges : Catalogue :=
  .ofEntities [
    ⟨"Badge", .object
      { base := some ⟨9⟩
        properties := [
          { name := "marks", wire := "marks", placement := .attribute
            type := .collection .sequence (.named ⟨0⟩) false }] }⟩,
    ⟨"Card", .object
      { properties := [
          { name := "number", wire := "number", type := .named ⟨2⟩, placement := .attribute },
          { name := "holder", wire := "holder", type := .named ⟨0⟩, layout := .flattened }] }⟩]

/-- The badges, sealed. -/
def sealedBadges : Catalogue := badges.withForest ⟨[], []⟩

theorem reachable_sealedBadges : sealedBadges.Reachable := by
  have hopen : badges.Reachable := .ofEntities (by decide)
  exact .trySeal hopen rfl

/-- The badge is refused, and for the holder that it inherits. -/
theorem planAll_refusal_badges :
    sealedBadges.Reachable ∧ sealedBadges.isSealed = true ∧
      (∃ s, sealedBadges.planAll .json = .ok s) ∧
      sealedBadges.planAll .xml =
        .error (.invalidLayout "Badge" "holder" .flattenedNonSequence) := by
  have hlow : ∀ k < 8, sealedBadges.object? ⟨k⟩ = none := by decide
  have hr := planAll_refusal reachable_sealedBadges rfl
  refine ⟨reachable_sealedBadges, rfl, hr.1, (hr.2.2.1 _).2 ⟨⟨8⟩, _,
    { name := "holder", wire := "holder", type := .named ⟨0⟩, layout := .flattened },
    .flattenedNonSequence, rfl, fun k o ho hlt => ?_,
    ⟨[_], [_], rfl, ?_, .flattened nofun rfl rfl⟩, rfl⟩⟩
  · simp [hlow k.index hlt] at ho
  · -- The number is a scalar in an attribute, which is fine.
    intro q hq g hg
    obtain rfl := List.mem_singleton.1 hq
    cases hg with
    | structured _ hn => exact hn ⟨⟨2⟩, rfl, .inl ⟨.integer, rfl⟩⟩
    | flattened _ hf _ => cases hf

end Catalogue

end Marshal
