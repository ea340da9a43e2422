import Marshal.Proofs.Json.Outline
import Marshal.Proofs.Wire.Parts

/-!
# JSON documents as renderings

`Json.renderObject` makes the tree of an object by plain recursion on the object and the steps of
its plan, with no sink and no merging. A document is the text of that tree (`Document.write_render`).
Members are never merged when a document is written: the names of the properties of a type differ, the
entries of its carrier are those under other keys, and the entries of a map have different keys
(`Draft.Written.nodup_names`).
-/

namespace Marshal

/-! ## Values in key order -/

namespace Value

mutual

/-- Whether the entries of maps and objects stand in ascending key order, at every depth. -/
def isOrdered : Value → Bool
  | .list vs => areOrdered vs
  | .map es => decide (Table.Ascending es) && entriesAreOrdered es
  | .object _ fields => decide (Table.Ascending fields) && entriesAreOrdered fields
  | _ => true

/-- Whether the items of a list are in key order. -/
def areOrdered : List Value → Bool
  | [] => true
  | v :: vs => isOrdered v && areOrdered vs

/-- Whether the values of a table are in key order. -/
def entriesAreOrdered : List (String × Value) → Bool
  | [] => true
  | (_, v) :: es => isOrdered v && entriesAreOrdered es

end

theorem areOrdered_iff {vs : List Value} : areOrdered vs = true ↔ ∀ v ∈ vs, v.isOrdered = true := by
  induction vs with
  | nil => simp [areOrdered]
  | cons v vs ih => rw [areOrdered, Bool.and_eq_true, ih, List.forall_mem_cons]

theorem entriesAreOrdered_iff {es : List (String × Value)} :
    entriesAreOrdered es = true ↔ ∀ e ∈ es, e.2.isOrdered = true := by
  induction es with
  | nil => simp [entriesAreOrdered]
  | cons e es ih => rw [entriesAreOrdered, Bool.and_eq_true, ih, List.forall_mem_cons]

theorem isOrdered_map_iff {es : List (String × Value)} :
    (Value.map es).isOrdered = true ↔ Table.Ascending es ∧ ∀ e ∈ es, e.2.isOrdered = true := by
  rw [isOrdered, Bool.and_eq_true, decide_eq_true_iff, entriesAreOrdered_iff]

theorem isOrdered_object_iff {t : Handle} {fields : List (String × Value)} :
    (Value.object t fields).isOrdered = true ↔
      Table.Ascending fields ∧ ∀ e ∈ fields, e.2.isOrdered = true := by
  rw [isOrdered, Bool.and_eq_true, decide_eq_true_iff, entriesAreOrdered_iff]

/-- What a step may write of an object in key order is in key order. -/
theorem isOrdered_of_within {t : Handle} {fields : List (String × Value)} {v : Value}
    (h : (Value.object t fields).isOrdered = true) (hv : Within fields v) : v.isOrdered = true := by
  obtain ⟨-, hfields⟩ := isOrdered_object_iff.1 h
  rcases hv with ⟨k, hv⟩ | ⟨k, k', es, hes, hv⟩
  · exact hfields _ hv
  · exact (isOrdered_map_iff.1 (hfields _ hes)).2 _ hv

end Value

/-! ## Rendering -/

namespace Json

/-- The tree of a scalar. -/
def renderScalar : Value → Json
  | .bool b => .bool b
  | .integer n => .integer n.toInt
  | .float x => .float x
  | .text w => .text w
  | .timestamp t => .text t.text
  | .blob bytes => .text (Base64.encode bytes)
  | _ => .null

/-- The word of an enumeration value. -/
def renderWord (s : PlanSet) (h : Handle) : EnumValue → String
  | .known member => ((s.enum? h).bind fun p => Member.named? p.members member).elim "" Member.wire
  | .unknown raw => raw

mutual

/-- **The tree of an object**: the members for the steps of its plan, in their order. -/
def renderObject (s : PlanSet) (t : Handle) (fields : List (String × Value)) : Json :=
  match s.type? t with
  | none => .null
  | some plan => .object (plan.write.steps.flatMap fun st => renderStep s plan fields st)
termination_by (sizeOf fields, 1)

/-- The members for a step: the word of the type for its discriminator, whatever the object holds
there, nothing for an absent property, and the entries of a carrier in its place. -/
def renderStep (s : PlanSet) (plan : TypePlan) (fields : List (String × Value)) (st : Step) :
    List (String × Json) :=
  match st.emission with
  | .discriminator word => word.toList.map fun w => (st.wire, .text w)
  | .entries shape _ =>
    match _ : Table.find? fields st.property with
    | some (.map captured) => renderExtras s plan shape captured
    | _ => []
  | .value shape =>
    match _ : Table.find? fields st.property with
    | none => []
    | some v => [(st.wire, renderValue s shape v)]
termination_by (sizeOf fields, 0)
decreasing_by
  all_goals
    have := List.sizeOf_lt_of_mem (Table.mem_of_find? (by assumption))
    simp only [Prod.mk.sizeOf_spec, Value.map.sizeOf_spec] at this
    omega

/-- The members for the entries of a carrier, without those whose keys are names of properties. -/
def renderExtras (s : PlanSet) (plan : TypePlan) (shape : Shape) :
    List (String × Value) → List (String × Json)
  | [] => []
  | (key, v) :: rest =>
    if Table.contains plan.read.actions key then renderExtras s plan shape rest
    else (key, renderValue s shape v) :: renderExtras s plan shape rest
termination_by captured => (sizeOf captured, 0)

/-- The members for the entries of a map. -/
def renderEntries (s : PlanSet) (shape : Shape) : List (String × Value) → List (String × Json)
  | [] => []
  | (key, v) :: rest => (key, renderValue s shape v) :: renderEntries s shape rest
termination_by es => (sizeOf es, 0)

/-- The trees of the items of a list. -/
def renderItems (s : PlanSet) (shape : Shape) : List Value → List Json
  | [] => []
  | v :: rest => renderValue s shape v :: renderItems s shape rest
termination_by vs => (sizeOf vs, 0)

/-- **The tree of a value** of a given shape. -/
def renderValue (s : PlanSet) (shape : Shape) (v : Value) : Json :=
  match shape, v with
  | _, .null => .null
  | .primitive _, v => renderScalar v
  | .enumeration h, .enum e => .text (renderWord s h e)
  | .object _, .object t fields => renderObject s t fields
  | .sequence element _ _, .list vs => .array (renderItems s element vs)
  | .mapping element _, .map es => .object (renderEntries s element es)
  | _, _ => .null
termination_by (sizeOf v, 0)

end

end Json

/-! ## Names are not repeated -/

/-- Entries related by their keys have the same keys. -/
theorem Table.keys_eq_of_forall₂ {κ α β : Type} {t : List (κ × α)} {u : List (κ × β)}
    (H : List.Forall₂ (fun e x => x.1 = e.1) t u) : Table.keys u = Table.keys t := by
  induction H with
  | nil => rfl
  | cons hx _ ih => exact congrArg₂ List.cons hx ih

namespace Draft

open Catalogue

variable {c : Catalogue} {f : Format} {s : PlanSet} {t : Handle} {o : ObjectType} {plan : TypePlan}
  {fields : List (String × Value)} {p q : Property} {ps qs : List (String × Placement × Draft)}
  {pss : List (List (String × Placement × Draft))}

/-- The parts of one property have different names: a carrier has entries with different keys. -/
theorem Part.nodup_names (h : Part c f s t plan fields p ps)
    (hfields : p.carrier = true → ∀ es, Table.find? fields p.name = some (.map es) →
      Table.Ascending es) : (Table.keys ps).Nodup := by
  cases h with
  | word => exact List.nodup_singleton _
  | value => exact List.nodup_singleton _
  | absent => exact List.nodup_nil
  | uncaptured => exact List.nodup_nil
  | captured carrier _ _ found drafts =>
    rw [Table.keys_eq_of_forall₂ (drafts.imp fun _ _ h => h.1)]
    exact (List.Sublist.map _ List.filter_sublist).nodup (hfields carrier _ found).nodup

/-- Parts of different properties have different names. -/
theorem Part.disjoint_names (W : c.WellFormed) (hplan : c.Plans f t o plan) (ho : c.object? t = some o)
    (hp : p ∈ c.plannedProperties t) (hq : q ∈ c.plannedProperties t) (hne : p ≠ q)
    (h : Part c f s t plan fields p ps) (h' : Part c f s t plan fields q qs) :
    (Table.keys ps).Disjoint (Table.keys qs) := by
  intro key hkey hkey'
  obtain ⟨x, hx, rfl⟩ := List.mem_map.1 hkey
  obtain ⟨y, hy, hxy⟩ := List.mem_map.1 hkey'
  have hname := h.name x hx
  have hname' := h'.name y hy
  cases hpc : p.carrier <;> cases hqc : q.carrier <;>
    simp only [hpc, hqc, if_true, Bool.false_eq_true, if_false] at hname hname'
  · exact hne (W.eq_of_wireName ho hp hpc hq hqc (hname.symm.trans (hxy.symm.trans hname')))
  · rw [hxy, hname] at hname'
    exact (contains_actions_eq_false_iff hplan).1 hname' p hp hpc rfl
  · rw [← hxy, hname'] at hname
    exact (contains_actions_eq_false_iff hplan).1 hname q hq hqc rfl
  · exact hne (W.eq_of_carrier ho hp hpc hq hqc)

/-- **No name is repeated** among the parts of an object that has captured a table in key order. -/
theorem Written.nodup_names (W : c.WellFormed) (h : Written c f s t fields o plan pss)
    (hfields : ∀ p ∈ c.plannedProperties t, p.carrier = true → ∀ es,
      Table.find? fields p.name = some (.map es) → Table.Ascending es) :
    (Table.keys pss.flatten).Nodup := by
  rw [Table.keys, List.map_flatten]
  refine List.nodup_flatten.2 ⟨?_, List.pairwise_map.2 ?_⟩
  · refine List.forall_mem_map.2 fun ps hps => ?_
    obtain ⟨p, hp, hpart⟩ := Outcome.forall₂_exists_right h.parts hps
    exact hpart.nodup_names (hfields p (mem_emissionOrder.1 hp))
  · refine Outcome.forall₂_pairwise h.parts (fun p hp q hq hne ps qs hps hqs => ?_)
      (List.Nodup.of_map _ (h.nodup W))
    exact hps.disjoint_names W h.plans h.type (mem_emissionOrder.1 hp) (mem_emissionOrder.1 hq) hne hqs

end Draft

/-! ## Drafts are rendered -/

namespace Json

open Draft Catalogue

variable {c : Catalogue} {s : PlanSet} {plan : TypePlan} {fields : List (String × Value)} {st : Step}
  {shape : Shape} {n : Bool}

/-- Whatever the draft of a value, its tree is the rendering. -/
def Rendered (s : PlanSet) (v : Value) : Prop :=
  ∀ shape n d, ofValue? s shape n v = some d → ofDraft d = renderValue s shape v

/-- Members under different keys are not merged. -/
theorem ofMembers_eq_self {ms : List (String × Json)} (h : (Table.keys ms).Nodup) :
    ofMembers ms = .object ms := by
  rw [ofMembers, foldl_put_eq_append (by simpa using h), List.nil_append]

theorem keys_ofParts (ps : List (String × Placement × Draft)) :
    Table.keys (ofParts ps) = Table.keys ps := by
  simp only [ofParts_eq_map, Table.keys, List.map_map]
  rfl

/-- An object with parts under different names is the object of their members. -/
theorem ofDraft_object_eq {ps : List (String × Placement × Draft)} (h : (Table.keys ps).Nodup) :
    ofDraft (.object ps) = .object (ofParts ps) := by
  rw [ofDraft, ofMembers_eq_self (keys_ofParts ps ▸ h)]

theorem ofDraft_scalar_eq {kind : Primitive} {v : Value} {d : Draft}
    (h : ofPrimitive? kind v = some d) : ofDraft d = renderScalar v := by
  obtain ⟨t, _, rfl, ht⟩ := exists_of_ofPrimitive? h
  rw [ofDraft]
  unfold Token.ofValue at ht
  split at ht
  case h_3 | h_5 | h_6 =>
    split at ht <;> cases ht
    rfl
  all_goals
    cases ht
    try rfl

theorem word_eq {h : Handle} {e : EnumValue} {w : String} (hw : Encode.enumWord s h e = .ok w) :
    w = renderWord s h e := by
  rw [Encode.enumWord] at hw
  rcases hs : s.enum? h with _ | p <;> rw [hs] at hw
  · cases hw
  · cases e with
    | known member =>
      dsimp only at hw
      rcases hm : Member.named? p.members member with _ | m <;> rw [hm] at hw
      · cases hw
      · cases hw
        simp [renderWord, hs, hm]
    | unknown raw =>
      dsimp only at hw
      split at hw
      · cases hw
        rfl
      · cases hw

theorem ofItems_eq_render {vs : List Value} {ds : List Draft} (hv : ∀ v ∈ vs, Rendered s v)
    (h : ofItems? s shape n vs = some ds) : ofItems ds = renderItems s shape vs := by
  rw [ofItems?_eq_some_iff] at h
  induction h with
  | nil => simp [ofItems, renderItems]
  | cons hd _ ih =>
    obtain ⟨hv, hvs⟩ := List.forall_mem_cons.1 hv
    rw [ofItems, renderItems, hv _ _ _ hd, ih hvs]

theorem ofEntries_eq_render {es : List (String × Value)} {ds : List (String × Draft)}
    (hv : ∀ e ∈ es, Rendered s e.2) (h : ofEntries? s shape n es = some ds) :
    ofEntries ds = renderEntries s shape es := by
  rw [ofEntries?_eq_some_iff] at h
  induction h with
  | nil => simp [ofEntries, renderEntries]
  | cons hd _ ih =>
    obtain ⟨hv, hvs⟩ := List.forall_mem_cons.1 hv
    rw [ofEntries, renderEntries, hd.1, hv _ _ _ hd.2, ih hvs]

theorem keys_renderEntries (es : List (String × Value)) :
    Table.keys (renderEntries s shape es) = Table.keys es := by
  induction es with
  | nil => rw [renderEntries]; rfl
  | cons e es ih =>
    rw [renderEntries]
    exact congrArg (e.1 :: ·) ih

theorem renderExtras_eq (es : List (String × Value)) :
    renderExtras s plan shape es = (kept plan es).map fun e => (e.1, renderValue s shape e.2) := by
  induction es with
  | nil => rw [renderExtras]; rfl
  | cons e es ih =>
    rw [renderExtras, kept]
    by_cases hk : Table.contains plan.read.actions e.1 = true
    · rw [if_pos hk, ih, List.filter_cons_of_neg (by simp [hk]), kept]
    · rw [if_neg hk, ih, List.filter_cons_of_pos (by simp [hk]), List.map_cons, kept]

theorem ofParts_eq_renderExtras {es : List (String × Value)} {ps : List (String × Placement × Draft)}
    (hv : ∀ e ∈ es, Rendered s e.2) (h : ofExtras? s plan shape n es = some ps) :
    ofParts ps = renderExtras s plan shape es := by
  rw [renderExtras_eq]
  have hv' : ∀ e ∈ kept plan es, Rendered s e.2 := fun e he => hv e (List.mem_filter.1 he).1
  rw [ofExtras?_eq_some_iff] at h
  generalize kept plan es = es at hv' h
  induction h with
  | nil => rfl
  | cons hd _ ih =>
    obtain ⟨hv, hvs⟩ := List.forall_mem_cons.1 hv'
    rw [ofParts, List.map_cons, hd.1, hv _ _ _ hd.2.2, ih hvs]

theorem renderStep_discriminator {word : Option String} (he : st.emission = .discriminator word) :
    renderStep s plan fields st = word.toList.map fun w => (st.wire, .text w) := by
  rw [renderStep, he]

theorem renderStep_entries (he : st.emission = .entries shape n) :
    renderStep s plan fields st = match Table.find? fields st.property with
      | some (.map captured) => renderExtras s plan shape captured
      | _ => [] := by
  rw [renderStep, he]
  dsimp only
  split <;> rename_i hf <;> simp [hf]

theorem renderStep_value (he : st.emission = .value shape) :
    renderStep s plan fields st = match Table.find? fields st.property with
      | none => []
      | some v => [(st.wire, renderValue s shape v)] := by
  rw [renderStep, he]
  dsimp only
  split <;> rename_i hf <;> simp [hf]

/-- The parts that a step writes have the members that it renders. -/
theorem ofParts_eq_renderStep {ps : List (String × Placement × Draft)}
    (hv : ∀ v, Within fields v → Rendered s v) (h : ofStep? s plan fields st = some ps) :
    ofParts ps = renderStep s plan fields st := by
  rcases he : st.emission with shape | word | ⟨shape, n⟩
  · rw [renderStep_value he]
    rw [Encode.ofStep?_value he] at h
    rcases hf : Table.find? fields st.property with _ | v <;> rw [hf] at h
    · dsimp only at h
      split at h <;> cases h
      rfl
    · obtain ⟨d, hd, rfl⟩ := Option.map_eq_some_iff.1 h
      simp [ofParts, hv v (.inl ⟨_, Table.mem_of_find? hf⟩) _ _ _ hd]
  · rw [renderStep_discriminator he]
    rw [Encode.ofStep?_discriminator he] at h
    obtain ⟨w, rfl, rfl⟩ := Option.map_eq_some_iff.1 h
    rfl
  · rw [renderStep_entries he]
    rw [Encode.ofStep?_entries he] at h
    rcases hf : Table.find? fields st.property with _ | v <;> rw [hf] at h
    · cases h
      rfl
    · cases v
      case null =>
        cases h
        rfl
      case map es =>
        have hes := Table.mem_of_find? hf
        exact ofParts_eq_renderExtras (fun e he => hv e.2 (.inr ⟨_, e.1, es, hes, he⟩)) h
      all_goals cases h

theorem ofParts_append (ps qs : List (String × Placement × Draft)) :
    ofParts (ps ++ qs) = ofParts ps ++ ofParts qs := by
  simp only [ofParts_eq_map, List.map_append]

/-- The parts that the steps write have the members that they render, in their order. -/
theorem ofParts_eq_flatMap {steps : List Step} {pss : List (List (String × Placement × Draft))}
    (hv : ∀ v, Within fields v → Rendered s v)
    (h : List.Forall₂ (fun st ps => ofStep? s plan fields st = some ps) steps pss) :
    ofParts pss.flatten = steps.flatMap fun st => renderStep s plan fields st := by
  induction h with
  | nil => rfl
  | cons hst _ ih =>
    rw [List.flatten_cons, ofParts_append, ofParts_eq_renderStep hv hst, ih, List.flatMap_cons]

/-- **The tree of the draft of an object is its rendering**: no member of it is merged with another,
since no two have one key. -/
theorem ofDraft_eq_renderObject (P : c.PlannedBy .json s) {declared : Option Handle} {t : Handle}
    {d : Draft} (ho : (Value.object t fields).isOrdered = true)
    (hv : ∀ v, Within fields v → Rendered s v) (h : ofObject? s declared t fields = some d) :
    ofDraft d = renderObject s t fields := by
  obtain ⟨o, plan, pss, hwritten, rfl, -⟩ := written_of_ofObject? P h
  simp only [ofObject?, Option.bind_eq_bind, Option.bind_eq_some_iff, Option.pure_def,
    Option.some.injEq, Outcome.mapM_eq_some_iff] at h
  obtain ⟨plan', hplan, pss', hpss, hflat⟩ := h
  have hflat : pss'.flatten = pss.flatten := Draft.object.inj hflat
  obtain rfl := Option.some.inj (hwritten.planned.symm.trans (plan?_eq_some_iff.1 hplan).1)
  have hnodup : (Table.keys pss.flatten).Nodup :=
    hwritten.nodup_names P.wellFormed fun _ _ _ es hf => (Value.isOrdered_map_iff.1
      ((Value.isOrdered_object_iff.1 ho).2 _ (Table.mem_of_find? hf))).1
  rw [ofDraft_object_eq hnodup, renderObject, hwritten.planned, ← hflat, ofParts_eq_flatMap hv hpss]

/-- **The tree of a draft is the rendering of the value.** -/
theorem ofDraft_eq_renderValue (P : c.PlannedBy .json s) (v : Value) (ho : v.isOrdered = true) :
    Rendered s v := by
  induction hn : sizeOf v using Nat.strongRecOn generalizing v with
  | ind n ih =>
    subst hn
    intro shape allowed d hd
    cases ofValue?_eq_some_iff.1 hd with
    | null => simp [ofDraft, renderValue]
    | primitive hnull hd => rw [ofDraft_scalar_eq hd, renderValue.eq_2 _ _ _ hnull]
    | enumeration hw =>
      rw [renderValue.eq_3, ← word_eq hw]
      rfl
    | object hd =>
      rw [renderValue.eq_4]
      refine ofDraft_eq_renderObject P ho (fun w hw => ?_) hd
      exact ih _ (Value.sizeOf_lt_of_within hw) w (Value.isOrdered_of_within ho hw) rfl
    | sequence hds =>
      rw [Value.isOrdered, Value.areOrdered_iff] at ho
      rw [renderValue.eq_5, ofDraft, ofItems_eq_render (fun w hw =>
        ih _ (Value.sizeOf_lt_of_mem_list hw) w (ho w hw) rfl) hds]
    | @mapping element _ _ es ds hds =>
      obtain ⟨hasc, ho⟩ := Value.isOrdered_map_iff.1 ho
      have hmembers := ofEntries_eq_render (fun e he =>
        ih _ (Value.sizeOf_lt_of_mem_map he) e.2 (ho e he) rfl) hds
      have hnodup : (Table.keys (renderEntries s element es)).Nodup := by
        rw [keys_renderEntries]
        exact hasc.nodup
      rw [renderValue.eq_6, ofDraft, hmembers, ofMembers_eq_self hnodup]

end Json

/-! ## Documents -/

namespace Document

open Catalogue Draft

variable {c : Catalogue} {plans : PlanSet}

/-- **A JSON document is the text of the rendering** of the object that is written, whose entries
stand in key order; and no object of it repeats a key. -/
theorem write_render (hc : c.Reachable) (hs : c.planAll .json = .ok plans) {i : Instance}
    (hi : i.toValue.isOrdered = true) {doc : String} (h : write .json plans i = .ok doc) :
    doc = Json.compact (Json.renderObject plans i.type i.fields) ∧
      Json.Regular (Json.renderObject plans i.type i.fields) := by
  have P := planAll_spec hc hs
  obtain ⟨d, hd, rfl⟩ := (write_json_eq_ok_iff P).1 h
  have htree : Json.ofDraft d = Json.renderObject plans i.type i.fields :=
    Json.ofDraft_eq_renderObject P hi
      (fun v hv => Json.ofDraft_eq_renderValue P v (Value.isOrdered_of_within hi hv)) hd
  rw [← htree]
  exact ⟨rfl, Json.regular_ofDraft d⟩

/-- A circle that is said to be a square, without a radius; of what else is said of it, the null is
written, and what is said under the name of the radius is left out. -/
def pretender : Instance :=
  ⟨⟨9⟩, [("kind", .text "square"), ("labels", .list [.text "a", .text "b"]),
    ("others", .map [("big", .null), ("r", .bool true)])]⟩

theorem write_render_pretender : ∃ doc,
    write .json (shapePlans .json) pretender = .ok doc ∧
      doc = Json.compact (.object [("kind", .text "circle"),
        ("labels", .array [.text "a", .text "b"]), ("big", .null)]) := by
  have hplans : ((shapePlans .json).type? ⟨9⟩).map (fun plan =>
      (Table.contains plan.read.actions "big", Table.contains plan.read.actions "r",
        plan.write.steps)) = some (false, true,
        [⟨"kind", "kind", .discriminator (some "circle"), .element, true, false⟩,
          ⟨"radius", "r", .value (.primitive .integer), .element, false, false⟩,
          ⟨"labels", "labels", .value (.sequence (.primitive .string) false .standard), .element,
            false, false⟩,
          ⟨"others", "others", .entries (.primitive .boolean) true, .element, false, false⟩]) := by
    decide
  obtain ⟨plan, hplan, h⟩ := Option.map_eq_some_iff.1 hplans
  obtain ⟨hbig, h⟩ := Prod.mk.inj h
  obtain ⟨hradius, hsteps⟩ := Prod.mk.inj h
  have hplan? : plan? (shapePlans .json) none ⟨9⟩ = some plan :=
    plan?_eq_some_iff.2 ⟨hplan, nofun, by
      have habs : ((shapePlans .json).type? ⟨9⟩).map TypePlan.isAbstract = some false := by decide
      rw [hplan] at habs
      exact Option.some.inj habs⟩
  have hdraft : ∃ d, ofInstance? (shapePlans .json) pretender = some d := by
    simp [ofInstance?, pretender, ofObject?, ofStep?, ofValue?, ofItems?, ofExtras?, Table.find?,
      hplan?, hsteps, hbig, hradius, ofPrimitive?, Token.ofValue]
  obtain ⟨d, hd⟩ := hdraft
  have hwrite : write .json (shapePlans .json) pretender = .ok (Json.compact (Json.ofDraft d)) :=
    (write_json_eq_ok_iff (planAll_spec reachable_sealedShapes (planAll_sealedShapes .json))).2
      ⟨d, hd, rfl⟩
  refine ⟨_, hwrite, ?_⟩
  rw [(write_render reachable_sealedShapes (planAll_sealedShapes .json) (by decide) hwrite).1]
  simp [Json.renderObject, pretender, hplan, hsteps, Json.renderStep, Table.find?, Json.renderValue,
    Json.renderItems, Json.renderScalar, Json.renderExtras, hbig, hradius]

end Document

end Marshal
