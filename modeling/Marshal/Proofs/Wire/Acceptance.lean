import Marshal.Proofs.Plan.Dispatch
import Marshal.Proofs.Wire.Draft
import Marshal.Proofs.Wire.Objects

/-!
# What can be written

`Accepted` says of a value, in terms of the catalogue, that it can be written where a reference is
expected. It is weaker than being well typed: keys need not ascend, an object may have other fields,
its discriminator may hold anything, and so may captured entries that are left out.
`exists_draft_iff` shows that exactly the accepted values have a draft.
-/

namespace Marshal

/-- A value that is written for a primitive type. -/
def Primitive.Writes : Primitive → Value → Prop
  | .string, .text _ => True
  | .boolean, .bool _ => True
  | .integer, .integer n => Number.fits 32 n.toInt = true
  | .long, .integer _ => True
  | .float, .float x => x.isFinite = true
  | .double, .float x => x.isFinite = true
  | .timestamp, .timestamp _ => True
  | .blob, .blob _ => True
  | _, _ => False

theorem Primitive.not_writes_null {p : Primitive} : ¬ p.Writes .null := by
  cases p <;> exact not_false

theorem Primitive.not_writes_object {p : Primitive} {t : Handle} {fields : List (String × Value)} :
    ¬ p.Writes (.object t fields) := by
  cases p <;> exact not_false

namespace Catalogue

variable {c : Catalogue} {f : Format}

/-- The property holds the word that tells the type from others of its hierarchy. -/
def Distinguishes (c : Catalogue) (t : Handle) (p : Property) : Prop :=
  ∃ r, c.Governs r t ∧ c.Names r p.name

/-- **What is accepted where a reference is expected.** The flag allows a null. -/
inductive Accepted (c : Catalogue) (f : Format) : Bool → Reference → Value → Prop where
  | null {r : Reference} : Accepted c f true r .null
  | primitive {n : Bool} {h : Handle} {p : Primitive} {v : Value} :
    c.kind? h = some (.primitive p) → p.Writes v → Accepted c f n (.named h) v
  | known {n : Bool} {h : Handle} {e : Enumeration} {name : String} :
    c.kind? h = some (.enumeration e) → (∃ m ∈ e.members, m.name = name) →
    Accepted c f n (.named h) (.enum (.known name))
  | unknown {n : Bool} {h : Handle} {e : Enumeration} {raw : String} :
    c.kind? h = some (.enumeration e) → e.isOpen = true →
    Accepted c f n (.named h) (.enum (.unknown raw))
  | list {n m : Bool} {r : Reference} {vs : List Value} :
    (∀ v ∈ vs, Accepted c f m r v) → Accepted c f n (.collection .sequence r m) (.list vs)
  | map {n m : Bool} {r : Reference} {es : List (String × Value)} :
    (∀ k v, (k, v) ∈ es → Accepted c f m r v) →
    Accepted c f n (.collection .mapping r m) (.map es)
  | object {n : Bool} {h t : Handle} {o : ObjectType} {fields : List (String × Value)}
    (type : c.object? t = some o)
    (inherits : c.Inherits t h)
    (concrete : o.isAbstract = false)
    (word : ∀ r, c.Governs r t → ∃ w, c.word? t = some w)
    (required : ∀ p ∈ c.plannedProperties t, p.carrier = false → ¬ c.Distinguishes t p →
      p.required = true → ∃ v, Table.find? fields p.name = some v)
    (typed : ∀ p ∈ c.plannedProperties t, p.carrier = false → ¬ c.Distinguishes t p →
      ∀ v, Table.find? fields p.name = some v → Accepted c f p.nullable p.type v)
    (carried : ∀ p ∈ c.plannedProperties t, p.carrier = true →
      ∀ v, Table.find? fields p.name = some v → v = .null ∨ ∃ es, v = .map es)
    (captured : ∀ p ∈ c.plannedProperties t, p.carrier = true → ∀ r m,
      p.type = .collection .mapping r m → ∀ es, Table.find? fields p.name = some (.map es) →
        ∀ k v, (k, v) ∈ es →
          (∀ q ∈ c.plannedProperties t, q.carrier = false → wireName f q ≠ k) → Accepted c f m r v) :
    Accepted c f n (.named h) (.object t fields)

end Catalogue

namespace Draft

open Catalogue

variable {c : Catalogue} {f : Format} {s : PlanSet} {shape : Shape} {allowed : Bool}

/-! ## Collections -/

theorem ofItems?_eq_some_iff {vs : List Value} {ds : List Draft} :
    ofItems? s shape allowed vs = some ds ↔
      List.Forall₂ (fun v d => ofValue? s shape allowed v = some d) vs ds := by
  rw [← Outcome.mapM_eq_some_iff]
  have hmap : ofItems? s shape allowed vs = vs.mapM (ofValue? s shape allowed) := by
    induction vs with
    | nil => rw [ofItems?]; rfl
    | cons v vs ih => rw [ofItems?, List.mapM_cons, ih]
  rw [hmap]

theorem ofEntries?_eq_some_iff {es : List (String × Value)} {ds : List (String × Draft)} :
    ofEntries? s shape allowed es = some ds ↔
      List.Forall₂ (fun e d => d.1 = e.1 ∧ ofValue? s shape allowed e.2 = some d.2) es ds := by
  induction es generalizing ds with
  | nil => simp [ofEntries?, eq_comm]
  | cons e es ih =>
    obtain ⟨k, v⟩ := e
    simp only [ofEntries?, Option.bind_eq_bind, Option.bind_eq_some_iff, Option.pure_def,
      Option.some.injEq, ih]
    constructor
    · rintro ⟨d, hd, ds', hds, rfl⟩
      exact .cons ⟨rfl, hd⟩ hds
    · rintro (_ | @⟨_, ⟨_, d⟩, _, ds, ⟨rfl, hd⟩, hds⟩)
      exact ⟨d, hd, ds, hds, rfl⟩

/-- The entries of a carrier that are written: those under keys of no property. -/
def kept (plan : TypePlan) (es : List (String × Value)) : List (String × Value) :=
  es.filter fun e => !Table.contains plan.read.actions e.1

theorem ofExtras?_eq_some_iff {plan : TypePlan} {es : List (String × Value)}
    {ps : List (String × Placement × Draft)} :
    ofExtras? s plan shape allowed es = some ps ↔
      List.Forall₂ (fun e p => p.1 = e.1 ∧ p.2.1 = .element ∧
        ofValue? s shape allowed e.2 = some p.2.2) (kept plan es) ps := by
  induction es generalizing ps with
  | nil => simp [ofExtras?, kept, eq_comm]
  | cons e es ih =>
    obtain ⟨k, v⟩ := e
    rw [ofExtras?, kept]
    by_cases hk : Table.contains plan.read.actions k = true
    · rw [if_pos hk, ih, List.filter_cons_of_neg (by simp [hk]), kept]
    · rw [if_neg hk, List.filter_cons_of_pos (by simp [hk])]
      simp only [Option.bind_eq_bind, Option.bind_eq_some_iff, Option.pure_def, Option.some.injEq, ih]
      constructor
      · rintro ⟨d, hd, ps', hps, rfl⟩
        exact .cons ⟨rfl, rfl, hd⟩ hps
      · rintro (_ | @⟨_, ⟨_, _, d⟩, _, ps, ⟨rfl, rfl, hd⟩, hps⟩)
        exact ⟨d, hd, ps, hps, rfl⟩

/-! ## Objects -/

theorem plan?_eq_some_iff {declared : Option Handle} {t : Handle} {plan : TypePlan} :
    plan? s declared t = some plan ↔ s.type? t = some plan ∧
      (∀ d, declared = some d → s.isSubtype t d = true) ∧ plan.isAbstract = false := by
  rw [plan?, Outcome.toOption_eq_some_iff]
  constructor
  · rw [Encode.instancePlan, Encode.typePlan]
    rcases s.type? t with _ | p
    · intro h
      cases h
    · -- a type that is not abstract, where nothing is expected or a type above it
      have hlast : ∀ {q : TypePlan}, (if p.isAbstract = true then
            (throw (.abstractInstance p.name) : Except EncodeError TypePlan) else pure p) = .ok q →
          p = q ∧ p.isAbstract = false := by
        intro q hq
        by_cases ha : p.isAbstract = true
        · rw [if_pos ha] at hq
          cases hq
        · rw [if_neg ha] at hq
          exact ⟨Outcome.pure_eq_ok_iff.1 hq, Bool.eq_false_iff.2 ha⟩
      rcases declared with _ | d
      · intro h
        obtain ⟨rfl, ha⟩ := hlast h
        exact ⟨rfl, by simp, ha⟩
      · by_cases hd : s.isSubtype t d = true
        · intro h
          simp only [hd, if_true] at h
          obtain ⟨rfl, ha⟩ := hlast h
          exact ⟨rfl, fun _ he => Option.some.inj he ▸ hd, ha⟩
        · intro h
          simp only [hd] at h
          rcases hq : Encode.typePlan s d with _ | q <;> rw [hq] at h <;> cases h
  · rintro ⟨hp, hd, ha⟩
    exact Encode.instancePlan_eq_ok hp ha hd .item

theorem exists_ofObject?_iff {declared : Option Handle} {t : Handle} {fields : List (String × Value)} :
    (∃ d, ofObject? s declared t fields = some d) ↔ ∃ plan, plan? s declared t = some plan ∧
      ∀ st ∈ plan.write.steps, ∃ ps, ofStep? s plan fields st = some ps := by
  simp only [ofObject?, Option.bind_eq_bind, Option.bind_eq_some_iff, Option.pure_def,
    Option.some.injEq, Outcome.mapM_eq_some_iff, ← Outcome.exists_forall₂_iff]
  constructor
  · rintro ⟨d, plan, hplan, ps, hps, -⟩
    exact ⟨plan, hplan, ps, hps⟩
  · rintro ⟨plan, hplan, ps, hps⟩
    exact ⟨_, plan, hplan, ps, hps, rfl⟩

theorem exists_ofExtras?_iff {plan : TypePlan} {es : List (String × Value)} :
    (∃ ps, ofExtras? s plan shape allowed es = some ps) ↔
      ∀ e ∈ es, Table.contains plan.read.actions e.1 = false →
        ∃ d, ofValue? s shape allowed e.2 = some d := by
  simp only [ofExtras?_eq_some_iff, Outcome.exists_forall₂_iff, kept, List.mem_filter,
    Bool.not_eq_true', and_imp]
  refine forall_congr' fun e => forall_congr' fun _ => forall_congr' fun _ => ?_
  constructor
  · rintro ⟨p, -, -, hd⟩
    exact ⟨_, hd⟩
  · rintro ⟨d, hd⟩
    exact ⟨(e.1, .element, d), rfl, rfl, hd⟩

section Object

variable {t : Handle} {o : ObjectType} {plan : TypePlan} {fields : List (String × Value)}

/-- Keys of properties that are no carriers are those of the actions. -/
theorem contains_actions_eq_false_iff (hplan : c.Plans f t o plan) {k : String} :
    Table.contains plan.read.actions k = false ↔
      ∀ q ∈ c.plannedProperties t, q.carrier = false → wireName f q ≠ k := by
  rw [← Bool.not_eq_true, Table.contains_iff_exists]
  constructor
  · rintro hno q hq hqc rfl
    obtain ⟨shape, -, -, ha⟩ := hplan.action_of_mem hq hqc
    exact hno ⟨_, ha⟩
  · rintro hall ⟨a, ha⟩
    obtain ⟨q, hq, hqc, hk, -⟩ := (hplan.actions k a).1 ha
    exact hall q hq hqc hk

/-- The values in the fields of an object have drafts exactly when they are accepted. -/
def DraftsWithin (c : Catalogue) (f : Format) (s : PlanSet) (fields : List (String × Value)) :
    Prop :=
  ∀ v, Within fields v → ∀ (l : Layout) (r : Reference) (shape : Shape) (n : Bool),
    c.Forms l r shape → ((∃ d, ofValue? s shape n v = some d) ↔ c.Accepted f n r v)

theorem exists_ofStep?_iff (P : c.PlannedBy f s) (ho : c.object? t = some o)
    (hplan : c.Plans f t o plan) (H : DraftsWithin c f s fields) {p : Property} {x : Planned} (hx : c.Contributes f t o p x) :
    (∃ ps, ofStep? s plan fields x.step = some ps) ↔
      (p.carrier = false → c.Distinguishes t p → ∃ w, c.word? t = some w) ∧
      (p.carrier = false → ¬ c.Distinguishes t p →
        (p.required = true → ∃ v, Table.find? fields p.name = some v) ∧
          ∀ v, Table.find? fields p.name = some v → c.Accepted f p.nullable p.type v) ∧
      (p.carrier = true → ∀ v, Table.find? fields p.name = some v → v = .null ∨ ∃ es, v = .map es) ∧
      (p.carrier = true → ∀ r m, p.type = .collection .mapping r m → ∀ es,
        Table.find? fields p.name = some (.map es) → ∀ k v, (k, v) ∈ es →
          (∀ q ∈ c.plannedProperties t, q.carrier = false → wireName f q ≠ k) →
            c.Accepted f m r v) := by
  cases hx with
  | @field shape hc hshape hfault =>
    simp only [hc, forall_const, Bool.false_eq_true, false_imp_iff, and_true]
    rcases P.emissionOf_eq ho p shape with ⟨hd, he⟩ | ⟨hd, he⟩
    · have hdis : c.Distinguishes t p := hd
      rw [@Encode.ofStep?_discriminator s _ _ _ (c.word? t) he]
      simp only [hdis, not_true_eq_false, false_imp_iff, and_true, forall_const]
      cases c.word? t <;> simp
    · have hdis : ¬ c.Distinguishes t p := by
        rintro ⟨r, g, hr⟩
        exact hd r g hr
      rw [@Encode.ofStep?_value s shape _ _ _ he]
      simp only [hdis, not_false_eq_true, forall_const, false_imp_iff, true_and]
      dsimp only [Planned.step, fieldStep]
      rcases hf : Table.find? fields p.name with _ | v
      · show (∃ ps, (if p.required then none else some []) = some ps) ↔ _
        cases hr : p.required <;> simp
      · have hv := H v (.inl ⟨_, Table.mem_of_find? hf⟩) _ _ _ p.nullable hshape
        simp only [Option.map_eq_some_iff, Option.some.injEq, exists_eq', implies_true, true_and,
          forall_eq', ← hv]
        constructor
        · rintro ⟨_, d, hd, -⟩
          exact ⟨d, hd⟩
        · rintro ⟨d, hd⟩
          exact ⟨_, d, hd, rfl⟩
  | @carrier r shape n hc ht hs =>
    simp only [hc, forall_const, Bool.true_eq_false, false_imp_iff, true_and, ht,
      Reference.collection.injEq]
    rw [@Encode.ofStep?_entries s shape _ _ _ n rfl]
    dsimp only [Planned.step, carrierStep]
    rcases hf : Table.find? fields p.name with _ | v
    · simp
    · cases v
      case null => simp
      case map es =>
        have hv : ∀ k v, (k, v) ∈ es → ((∃ d, ofValue? s shape n v = some d) ↔ c.Accepted f n r v) :=
          fun k v hkv => H v (.inr ⟨_, k, es, Table.mem_of_find? hf, hkv⟩) _ _ _ n hs
        simp only [exists_ofExtras?_iff, contains_actions_eq_false_iff hplan, Option.some.injEq,
          forall_eq', reduceCtorEq, false_or, Value.map.injEq, exists_eq', true_and]
        constructor
        · rintro hall _ _ ⟨rfl, rfl⟩ k v hkv hk
          exact (hv k v hkv).1 (hall (k, v) hkv hk)
        · rintro hall ⟨k, v⟩ hkv hk
          exact (hv k v hkv).2 (hall r n ⟨rfl, rfl⟩ k v hkv hk)
      all_goals simp

/-- An object has a draft exactly when it is accepted. -/
theorem exists_ofObject?_iff_accepted (P : c.PlannedBy f s) (H : DraftsWithin c f s fields)
    {n : Bool} {h : Handle} {declared : Option Handle}
    (hdeclared : ∀ k, declared = some k → k = h) (hnone : declared = none → t = h) :
    (∃ d, ofObject? s declared t fields = some d) ↔
      c.Accepted f n (.named h) (.object t fields) := by
  rw [exists_ofObject?_iff]
  constructor
  · rintro ⟨plan, hplan, hsteps⟩
    obtain ⟨htype, hsub, habs⟩ := plan?_eq_some_iff.1 hplan
    obtain ⟨o, ho, hplans⟩ := P.plans htype
    rw [hplans.forall_steps] at hsteps
    choose x hx using fun p (hp : p ∈ c.plannedProperties t) => hplans.exists_contributes hp
    have hpart := fun p hp =>
      (exists_ofStep?_iff P ho hplans H (hx p hp)).1 (hsteps p hp _ (hx p hp))
    refine .object ho ?_ (by rw [← hplans.isAbstract, habs]) (fun r g => ?_)
      (fun p hp hc hd => ((hpart p hp).2.1 hc hd).1) (fun p hp hc hd => ((hpart p hp).2.1 hc hd).2)
      (fun p hp hc => (hpart p hp).2.2.1 hc) fun p hp hc => (hpart p hp).2.2.2 hc
    · rcases declared with _ | k
      · rw [hnone rfl]
        exact .refl h
      · rw [← hdeclared k rfl]
        exact (P.isSubtype_iff ho).1 (hsub k rfl)
    · obtain ⟨d, hd⟩ := g.2.1
      obtain ⟨p, hp, rfl, hc, -⟩ := P.exists_discriminator g hd
      exact (hpart p hp).1 hc ⟨r, g, hd⟩
  · intro ha
    cases ha with
    | primitive _ hw => exact absurd hw Primitive.not_writes_object
    | object ho hinh hconc hword hreq htyped hcarried hcaptured =>
      obtain ⟨plan, htype, hplans⟩ := P.exists_plans ho
      refine ⟨plan, plan?_eq_some_iff.2 ⟨htype, fun k hk => ?_, by rw [hplans.isAbstract, hconc]⟩, ?_⟩
      · rw [hdeclared k hk]
        exact (P.isSubtype_iff ho).2 hinh
      · rw [hplans.forall_steps]
        intro p hp x hx
        exact (exists_ofStep?_iff P ho hplans H hx).2
          ⟨fun _ ⟨r, g, _⟩ => hword r g, fun hc hd => ⟨hreq p hp hc hd, htyped p hp hc hd⟩,
            hcarried p hp, hcaptured p hp⟩

end Object

/-! ## Values -/

theorem exists_ofPrimitive?_iff {kind : Primitive} {v : Value} :
    (∃ d, ofPrimitive? kind v = some d) ↔ kind.Writes v := by
  have hiff : (∃ d, ofPrimitive? kind v = some d) ↔ ∃ t, Token.ofValue kind v "" = .ok t := by
    rw [ofPrimitive?]
    split
    · rename_i t ht
      exact iff_of_true ⟨_, rfl⟩ ⟨t, ht⟩
    · rename_i e he
      exact iff_of_false (by simp) (by simp [he])
  rw [hiff]
  cases kind <;> cases v <;> simp only [Token.ofValue, Primitive.Writes] <;> try simp
  all_goals split <;> simp_all

/-! ### Where a named type is expected -/

theorem accepted_null_iff {n : Bool} {r : Reference} : c.Accepted f n r .null ↔ n = true := by
  constructor
  · intro ha
    cases ha with
    | null => rfl
    | primitive _ hw => exact absurd hw Primitive.not_writes_null
  · rintro rfl
    exact .null

theorem accepted_primitive_iff (W : c.WellFormed) {n : Bool} {h : Handle} {p : Primitive}
    (hk : c.kind? h = some (.primitive p)) {v : Value} (hv : v ≠ .null) :
    c.Accepted f n (.named h) v ↔ p.Writes v := by
  constructor
  · intro ha
    cases ha with
    | null => exact absurd rfl hv
    | primitive hk' hw =>
      obtain rfl := Kind.primitive.inj (Option.some.inj (hk.symm.trans hk'))
      exact hw
    | known he => simp [hk] at he
    | unknown he => simp [hk] at he
    | object type inherits =>
      obtain ⟨o, ho⟩ := object?_of_inherits W.base type inherits
      simp [hk, object?_eq_some_iff] at ho
  · exact .primitive hk

/-- The values of an enumeration, nulls apart. -/
theorem accepted_enumeration_iff (W : c.WellFormed) {n : Bool} {h : Handle} {e : Enumeration}
    (he : c.kind? h = some (.enumeration e)) {v : Value} (hv : v ≠ .null) :
    c.Accepted f n (.named h) v ↔ (∃ m ∈ e.members, v = .enum (.known m.name)) ∨
      e.isOpen = true ∧ ∃ raw, v = .enum (.unknown raw) := by
  have hself : ∀ {e'}, c.kind? h = some (.enumeration e') → e' = e := fun he' =>
    Kind.enumeration.inj (Option.some.inj (he'.symm.trans he))
  constructor
  · intro ha
    cases ha with
    | null => exact absurd rfl hv
    | primitive hk => simp [he] at hk
    | known he' hm =>
      rw [hself he'] at hm
      obtain ⟨m, hm, rfl⟩ := hm
      exact .inl ⟨m, hm, rfl⟩
    | unknown he' ho => exact .inr ⟨hself he' ▸ ho, _, rfl⟩
    | object type inherits =>
      obtain ⟨o, ho⟩ := object?_of_inherits W.base type inherits
      simp [he, object?_eq_some_iff] at ho
  · rintro (⟨m, hm, rfl⟩ | ⟨ho, raw, rfl⟩)
    · exact .known he ⟨m, hm, rfl⟩
    · exact .unknown he ho

/-- Where an object is expected only an object is accepted. -/
theorem exists_of_accepted_object {n : Bool} {h : Handle} {oh : ObjectType}
    (hoh : c.object? h = some oh) {v : Value} (hv : v ≠ .null) (ha : c.Accepted f n (.named h) v) :
    ∃ t fields, v = .object t fields := by
  have hk := object?_eq_some_iff.1 hoh
  cases ha with
  | null => exact absurd rfl hv
  | primitive hk' => simp [hk] at hk'
  | known he => simp [hk] at he
  | unknown he => simp [hk] at he
  | object => exact ⟨_, _, rfl⟩

/-! ### All values -/

theorem exists_enumWord_iff (P : c.PlannedBy f s) {h : Handle} {e : Enumeration}
    (he : c.kind? h = some (.enumeration e)) {x : EnumValue} :
    (∃ w, Encode.enumWord s h x = .ok w) ↔ (∃ m ∈ e.members, x = .known m.name) ∨
      e.isOpen = true ∧ ∃ raw, x = .unknown raw := by
  rw [Encode.enumWord, P.enum?_eq_some_iff.2 ⟨e, he, rfl⟩]
  cases x with
  | known name =>
    simp only [EnumValue.known.injEq, reduceCtorEq, exists_false, and_false, or_false]
    rcases hm : Member.named? e.members name with _ | m
    · refine iff_of_false (by simp) ?_
      rintro ⟨m, hm', rfl⟩
      exact List.find?_eq_none.1 hm m hm' (beq_iff_eq.2 rfl)
    · exact iff_of_true ⟨m.wire, rfl⟩ ⟨m, List.mem_of_find?_eq_some hm,
        (beq_iff_eq.1 (List.find?_some (p := fun m : Member => m.name == name) hm)).symm⟩
  | unknown raw => cases ho : e.isOpen <;> simp

theorem exists_ofItems?_iff {vs : List Value} :
    (∃ ds, ofItems? s shape allowed vs = some ds) ↔
      ∀ v ∈ vs, ∃ d, ofValue? s shape allowed v = some d := by
  simp only [ofItems?_eq_some_iff, Outcome.exists_forall₂_iff]

theorem exists_ofEntries?_iff {es : List (String × Value)} :
    (∃ ds, ofEntries? s shape allowed es = some ds) ↔
      ∀ e ∈ es, ∃ d, ofValue? s shape allowed e.2 = some d := by
  simp only [ofEntries?_eq_some_iff, Outcome.exists_forall₂_iff]
  refine forall_congr' fun e => forall_congr' fun _ => ?_
  constructor
  · rintro ⟨x, -, hx⟩
    exact ⟨_, hx⟩
  · rintro ⟨d, hd⟩
    exact ⟨(e.1, d), rfl, hd⟩

/-- A list has a draft where exactly the accepted items have one. -/
theorem exists_ofValue?_list_iff {r : Reference} {element : Shape} {l : Layout} {m : Bool}
    {vs : List Value}
    (h : ∀ v ∈ vs, (∃ d, ofValue? s element m v = some d) ↔ c.Accepted f m r v) :
    (∃ d, ofValue? s (.sequence element m l) allowed (.list vs) = some d) ↔
      c.Accepted f allowed (.collection .sequence r m) (.list vs) := by
  have hiff : (∃ ds, ofItems? s element m vs = some ds) ↔ ∀ v ∈ vs, c.Accepted f m r v := by
    rw [exists_ofItems?_iff]
    exact forall_congr' fun v => forall_congr' fun hv => h v hv
  rw [ofValue?.eq_5, ← Option.isSome_iff_exists, Option.isSome_map, Option.isSome_iff_exists, hiff]
  constructor
  · exact .list
  · intro ha
    cases ha with
    | list hall => exact hall

/-- A map has a draft where exactly the accepted entries have one. -/
theorem exists_ofValue?_map_iff {r : Reference} {element : Shape} {m : Bool}
    {es : List (String × Value)}
    (h : ∀ k v, (k, v) ∈ es → ((∃ d, ofValue? s element m v = some d) ↔ c.Accepted f m r v)) :
    (∃ d, ofValue? s (.mapping element m) allowed (.map es) = some d) ↔
      c.Accepted f allowed (.collection .mapping r m) (.map es) := by
  have hiff : (∃ ds, ofEntries? s element m es = some ds) ↔
      ∀ k v, (k, v) ∈ es → c.Accepted f m r v := by
    rw [exists_ofEntries?_iff, Prod.forall]
    exact forall_congr' fun k => forall_congr' fun v => forall_congr' fun hv => h k v hv
  rw [ofValue?.eq_6, ← Option.isSome_iff_exists, Option.isSome_map, Option.isSome_iff_exists, hiff]
  constructor
  · exact .map
  · intro ha
    cases ha with
    | map hall => exact hall

/-- **Exactly the accepted values have a draft.** -/
theorem exists_draft_iff (P : c.PlannedBy f s) (v : Value) {l : Layout} {r : Reference}
    (hshape : c.Forms l r shape) :
    (∃ d, ofValue? s shape allowed v = some d) ↔ c.Accepted f allowed r v := by
  induction hn : sizeOf v using Nat.strongRecOn generalizing v l r shape allowed with
  | ind n ih =>
    subst hn
    by_cases hv : v = .null
    · subst hv
      rw [accepted_null_iff, ofValue?.eq_1]
      cases allowed <;> simp
    · cases hshape with
      | primitive hk =>
        rw [ofValue?.eq_2 _ _ _ _ hv, exists_ofPrimitive?_iff, accepted_primitive_iff P.wellFormed hk hv]
      | @enumeration _ h e he =>
        rw [accepted_enumeration_iff P.wellFormed he hv]
        cases v
        case enum x =>
          simp only [Value.enum.injEq, ← exists_enumWord_iff P he]
          rw [ofValue?.eq_3]
          rcases Encode.enumWord s h x with _ | w <;> simp [Except.toOption]
        case null => exact absurd rfl hv
        all_goals
          unfold ofValue?
          simp
      | @object _ h oh hoh =>
        cases v
        case object t fields =>
          rw [ofValue?.eq_4]
          refine exists_ofObject?_iff_accepted P (fun w hw l r shape n hshape => ?_)
            (fun k hk => (Option.some.inj hk).symm) (by simp)
          exact ih _ (Value.sizeOf_lt_of_within hw) w hshape rfl
        case null => exact absurd rfl hv
        all_goals
          unfold ofValue?
          refine iff_of_false (by simp) fun ha => ?_
          obtain ⟨t, fields, he⟩ := exists_of_accepted_object hoh hv ha
          cases he
      | @sequence _ r element m hs =>
        cases v
        case list vs =>
          exact exists_ofValue?_list_iff fun w hw => ih _ (Value.sizeOf_lt_of_mem_list hw) w hs rfl
        case null => exact absurd rfl hv
        all_goals
          unfold ofValue?
          exact iff_of_false (by simp) fun ha => by cases ha
      | @mapping _ r element m hs =>
        cases v
        case map es =>
          exact exists_ofValue?_map_iff fun k w hw => ih _ (Value.sizeOf_lt_of_mem_map hw) w hs rfl
        case null => exact absurd rfl hv
        all_goals
          unfold ofValue?
          exact iff_of_false (by simp) fun ha => by cases ha

/-- **Exactly the accepted objects have a draft** as the root of a document. -/
theorem exists_ofInstance?_iff (P : c.PlannedBy f s) (i : Instance) :
    (∃ d, ofInstance? s i = some d) ↔ c.Accepted f false (.named i.type) i.toValue :=
  exists_ofObject?_iff_accepted P (fun v _ _ _ _ _ hshape => exists_draft_iff P v hshape)
    (by simp) fun _ => rfl

end Draft

end Marshal
