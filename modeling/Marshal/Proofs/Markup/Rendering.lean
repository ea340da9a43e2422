import Marshal.Proofs.Json.Rendering
import Marshal.Proofs.Markup.Parts

/-!
# Markup documents as renderings

`Markup.renderObject` makes the content of the element of an object by plain recursion on the object
and the steps of its plan, with no sink and no start tag that is held back. A document is the
declaration and the element of that content (`Document.write_xml_render`). The steps stand in the order
of the properties in effect, those of attributes first (`Catalogue.PlannedBy.steps_forall₂`), and the
lexer finds one element in the document, with a start tag and an end tag wherever the content has them
(`Lexer.sole_document`).
-/

namespace Marshal

namespace Markup

/-! ## Rendering -/

/-- The text of a scalar. -/
def spell (s : PlanSet) : Shape → Value → Option String
  | .primitive _, .bool b => some (Token.bool b).spelling
  | .primitive _, .integer n => some (Token.integer n).spelling
  | .primitive _, .float x => some (Token.float x).spelling
  | .primitive _, .text w => some w
  | .primitive _, .timestamp t => some t.text
  | .primitive _, .blob bytes => some (Base64.encode bytes)
  | .enumeration h, .enum e => some (Json.renderWord s h e)
  | _, _ => none

/-- **The attribute for a step**, where it has one: the word of the type for its discriminator, and no
attribute for a null or an absent property. -/
def renderAttribute? (s : PlanSet) (fields : List (String × Value)) (st : Step) :
    Option (String × String) :=
  match st.placement, st.emission with
  | .attribute, .discriminator word => word.map fun w => (st.wire, w)
  | .attribute, .value shape =>
    (Table.find? fields st.property).bind fun v => (spell s shape v).map fun w => (st.wire, w)
  | _, _ => none

mutual

/-- **The content of an object**: the attributes and the elements for the steps of its plan, in their
order. -/
def renderObject (s : PlanSet) (t : Handle) (fields : List (String × Value)) : Content :=
  match s.type? t with
  | none => .parts [] []
  | some plan => .parts (plan.write.steps.filterMap fun st => renderAttribute? s fields st)
      (plan.write.steps.flatMap fun st => renderStep s plan fields st)
termination_by (sizeOf fields, 1)

/-- The elements for a step that has no attribute. The entries of a carrier stand in its place. -/
def renderStep (s : PlanSet) (plan : TypePlan) (fields : List (String × Value)) (st : Step) :
    List (String × Content) :=
  match st.placement, st.emission with
  | .attribute, .discriminator _ => []
  | .attribute, .value _ => []
  | .element, .discriminator word => word.toList.map fun w => (st.wire, .text w)
  | _, .entries shape _ =>
    match _ : Table.find? fields st.property with
    | some (.map captured) => renderExtras s plan shape captured
    | _ => []
  | .element, .value shape =>
    match _ : Table.find? fields st.property with
    | some v => renderField s st.wire shape v
    | none => []
termination_by (sizeOf fields, 0)
decreasing_by
  all_goals
    have := List.sizeOf_lt_of_mem (Table.mem_of_find? (by assumption))
    simp only [Prod.mk.sizeOf_spec, Value.map.sizeOf_spec] at this
    omega

/-- The elements for the entries of a carrier, without those whose keys are names of properties. -/
def renderExtras (s : PlanSet) (plan : TypePlan) (shape : Shape) :
    List (String × Value) → List (String × Content)
  | [] => []
  | (key, v) :: rest =>
    if Table.contains plan.read.actions key then renderExtras s plan shape rest
    else renderField s key shape v ++ renderExtras s plan shape rest
termination_by captured => (sizeOf captured, 0)

/-- The elements for a value in an object: the items of a flattened list have no element around
them. -/
def renderField (s : PlanSet) (name : String) (shape : Shape) (v : Value) : List (String × Content) :=
  match shape, v with
  | .sequence element _ .flattened, .list vs => renderItems s name element vs
  | shape, v => renderElement s name shape v
termination_by (sizeOf v, 2)

/-- The elements for the entries of a map: a key, and a value unless it is a null. -/
def renderEntries (s : PlanSet) (shape : Shape) : List (String × Value) → List (String × Content)
  | [] => []
  | (key, v) :: rest =>
    ("entry", .parts [] (("key", .text key) :: renderElement s "value" shape v)) ::
      renderEntries s shape rest
termination_by es => (sizeOf es, 0)

/-- The elements for the items of a list. -/
def renderItems (s : PlanSet) (name : String) (shape : Shape) : List Value → List (String × Content)
  | [] => []
  | v :: rest => renderElement s name shape v ++ renderItems s name shape rest
termination_by vs => (sizeOf vs, 0)

/-- The element for a value; a null has none. -/
def renderElement (s : PlanSet) (name : String) (shape : Shape) (v : Value) : List (String × Content) :=
  match v with
  | .null => []
  | v => [(name, renderValue s shape v)]
termination_by (sizeOf v, 1)

/-- **The content of the element of a value** of a given shape. A scalar is a text, even if it is
empty. -/
def renderValue (s : PlanSet) (shape : Shape) (v : Value) : Content :=
  match shape, v with
  | .object _, .object t fields => renderObject s t fields
  | .sequence element _ (.wrapped item), .list vs => .parts [] (renderItems s item element vs)
  | .mapping element _, .map es => .parts [] (renderEntries s element es)
  | shape, v => (spell s shape v).elim (.parts [] []) .text
termination_by (sizeOf v, 0)

end

/-! ## Drafts are rendered -/

section Drafts

open Draft

variable {s : PlanSet} {plan : TypePlan} {fields : List (String × Value)} {st : Step} {shape : Shape}
  {n : Bool} {v : Value} {d : Draft} {name : String}

theorem spell_null : spell s shape .null = none := by
  cases shape <;> rfl

/-- A null has no content of its own, and neither has a flattened list. -/
theorem renderValue_null : renderValue s shape .null = .parts [] [] := by
  rw [renderValue.eq_def]
  split
  case h_4 =>
    rw [spell_null]
    rfl
  all_goals contradiction

theorem renderValue_flattened {vs : List Value} :
    renderValue s (.sequence shape n .flattened) (.list vs) = .parts [] [] := by
  rw [renderValue.eq_def]
  rfl

/-- Whatever the draft of a value, its content is the rendering. -/
def Rendered (s : PlanSet) (v : Value) : Prop :=
  ∀ shape n d, ofValue? s shape n v = some d → ofDraft d = renderValue s shape v

theorem renderElement_null : renderElement s name shape .null = [] := by
  rw [renderElement]

theorem renderElement_of_ne (hv : v ≠ .null) :
    renderElement s name shape v = [(name, renderValue s shape v)] := by
  rw [renderElement.eq_2 _ _ _ _ hv]

theorem renderValue_of_spell {w : String} (h : spell s shape v = some w) :
    renderValue s shape v = .text w := by
  unfold renderValue
  split
  · cases h
  · cases h
  · cases h
  · rw [h]
    rfl

theorem spell_of_ofValue {kind : Primitive} {t : Token} {field : String}
    (h : Token.ofValue kind v field = .ok t) : spell s (.primitive kind) v = some t.spelling := by
  unfold Token.ofValue at h
  split at h
  case h_3 | h_5 | h_6 =>
    split at h
    · cases h
      rfl
    · cases h
  all_goals
    cases h
    try rfl

/-- What is written of a primitive type is spelled. -/
theorem spell_of_ofPrimitive? {kind : Primitive} (h : ofPrimitive? kind v = some d) :
    ∃ t ht, d = .scalar t ht ∧ spell s (.primitive kind) v = some t.spelling := by
  obtain ⟨t, ht, rfl, hof⟩ := exists_of_ofPrimitive? h
  exact ⟨t, ht, rfl, spell_of_ofValue hof⟩

/-- What is written of an enumeration is spelled. -/
theorem spell_of_enumWord {h : Handle} {e : EnumValue} {w : String}
    (hw : Encode.enumWord s h e = .ok w) : spell s (.enumeration h) (.enum e) = some w := by
  rw [spell, ← Json.word_eq hw]

/-- **What the draft of a value is**: a scalar that is spelled, a null, or what the drafts of other
values make up. -/
inductive Drafted (s : PlanSet) : Shape → Value → Draft → Prop where
  | null {shape : Shape} : Drafted s shape .null .null
  | scalar {shape : Shape} {v : Value} {t : Token} {h : t.isFinite = true} :
    spell s shape v = some t.spelling → Drafted s shape v (.scalar t h)
  | object {k t : Handle} {fields : List (String × Value)}
    {parts : List (String × Placement × Draft)} :
    ofObject? s (some k) t fields = some (.object parts) →
    Drafted s (.object k) (.object t fields) (.object parts)
  | sequence {element : Shape} {n : Bool} {layout : Layout} {vs : List Value} {ds : List Draft} :
    ofItems? s element n vs = some ds →
    Drafted s (.sequence element n layout) (.list vs) (.sequence layout ds)
  | mapping {element : Shape} {n : Bool} {es : List (String × Value)} {ds : List (String × Draft)} :
    ofEntries? s element n es = some ds → Drafted s (.mapping element n) (.map es) (.mapping ds)

theorem drafted_of_ofValue? (h : ofValue? s shape n v = some d) : Drafted s shape v d := by
  cases ofValue?_eq_some_iff.1 h with
  | null => exact .null
  | primitive _ h =>
    obtain ⟨t, ht, rfl, hs⟩ := spell_of_ofPrimitive? (s := s) h
    exact .scalar hs
  | enumeration hw => exact .scalar (spell_of_enumWord hw)
  | object h =>
    obtain ⟨parts, rfl⟩ := exists_of_ofObject? h
    exact .object h
  | sequence hds => exact .sequence hds
  | mapping hds => exact .mapping hds

theorem ne_null_of_spell {w : String} (h : spell s shape v = some w) : v ≠ .null := by
  rintro rfl
  cases shape <;> cases h

/-- The element of a draft is that of the value. -/
theorem element_eq_render (hv : Rendered s v) (h : ofValue? s shape n v = some d) :
    (if d.isNull then [] else [(name, ofDraft d)]) = renderElement s name shape v := by
  rw [hv _ _ _ h]
  cases drafted_of_ofValue? h with
  | null =>
    rw [renderElement_null]
    rfl
  | scalar hs =>
    rw [renderElement_of_ne (ne_null_of_spell hs)]
    rfl
  | object | sequence | mapping => exact (renderElement_of_ne (by simp)).symm

/-- The attribute of a draft is the spelling of the value. -/
theorem attributeOf?_eq_spell (h : ofValue? s shape n v = some d) :
    attributeOf? (name, .attribute, d) = (spell s shape v).map fun w => (name, w) := by
  cases drafted_of_ofValue? h with
  | null =>
    rw [spell_null]
    rfl
  | scalar hs =>
    rw [hs]
    rfl
  | object | sequence | mapping => rfl

theorem itemsOf_eq_render {vs : List Value} {ds : List Draft} (hv : ∀ v ∈ vs, Rendered s v)
    (h : ofItems? s shape n vs = some ds) : itemsOf name ds = renderItems s name shape vs := by
  rw [ofItems?_eq_some_iff] at h
  induction h with
  | nil => rw [itemsOf, renderItems]
  | cons hd _ ih =>
    obtain ⟨hv, hvs⟩ := List.forall_mem_cons.1 hv
    rw [itemsOf, renderItems, element_eq_render hv hd, ih hvs]

theorem entriesOf_eq_render {es : List (String × Value)} {ds : List (String × Draft)}
    (hv : ∀ e ∈ es, Rendered s e.2) (h : ofEntries? s shape n es = some ds) :
    entriesOf ds = renderEntries s shape es := by
  rw [ofEntries?_eq_some_iff] at h
  induction h with
  | nil => rw [entriesOf, renderEntries]
  | @cons e x es ds hd _ ih =>
    obtain ⟨hv, hvs⟩ := List.forall_mem_cons.1 hv
    have hvalue : (Option.toList (if x.2.isNull then none else some (ofDraft x.2))).map
        (fun c => ("value", c)) = renderElement s "value" shape e.2 := by
      rw [← element_eq_render hv hd.2]
      split <;> rfl
    rw [entriesOf, renderEntries, ih hvs, entryContent, hvalue, hd.1]

/-- Whatever the draft of a value or of the items of one, its contents are the renderings. -/
structure RenderedInside (s : PlanSet) (v : Value) : Prop where
  self : Rendered s v
  items : ∀ vs, v = .list vs → ∀ w ∈ vs, Rendered s w

/-- The elements of a part are those of the value. -/
theorem elementsAt_eq_renderField (hv : RenderedInside s v) (h : ofValue? s shape n v = some d) :
    elementsAt (name, .element, d) = renderField s name shape v := by
  have helement : d.isFlattened = false → renderField s name shape v = renderElement s name shape v →
      elementsAt (name, .element, d) = renderField s name shape v := fun hd hr => by
    rw [hr, elementsAt_of_not_flattened hd, element_eq_render hv.self h]
  cases drafted_of_ofValue? h with
  | null => exact helement rfl (by rw [renderField]; nofun)
  | scalar hs =>
    refine helement rfl ?_
    rw [renderField]
    rintro element m vs rfl
    cases hs
  | object | mapping => exact helement rfl (by rw [renderField]; nofun)
  | @sequence element m layout vs ds hds =>
    cases layout with
    | wrapped => exact helement rfl (by rw [renderField]; nofun)
    | flattened => rw [renderField, elementsAt, itemsOf_eq_render (hv.items _ rfl) hds]

theorem elementsOf_eq_renderExtras {es : List (String × Value)}
    {ps : List (String × Placement × Draft)} (hv : ∀ e ∈ es, RenderedInside s e.2)
    (h : ofExtras? s plan shape n es = some ps) : ps.flatMap elementsAt = renderExtras s plan shape es := by
  rw [ofExtras?_eq_some_iff] at h
  have hkept : renderExtras s plan shape es =
      (kept plan es).flatMap fun e => renderField s e.1 shape e.2 := by
    clear h hv
    induction es with
    | nil => rw [renderExtras, kept, List.filter_nil, List.flatMap_nil]
    | cons e es ih =>
      rw [renderExtras, kept]
      by_cases hk : Table.contains plan.read.actions e.1 = true
      · rw [if_pos hk, ih, List.filter_cons_of_neg (by simp [hk]), kept]
      · rw [if_neg hk, ih, List.filter_cons_of_pos (by simp [hk]), List.flatMap_cons, kept]
  have hv' : ∀ e ∈ kept plan es, RenderedInside s e.2 := fun e he => hv e (List.mem_filter.1 he).1
  rw [hkept]
  generalize kept plan es = es at hv' h
  induction h with
  | nil => rfl
  | @cons e x es ps hd _ ih =>
    obtain ⟨hv, hvs⟩ := List.forall_mem_cons.1 hv'
    obtain ⟨name, placement, d⟩ := x
    obtain ⟨rfl, rfl, hd⟩ := hd
    rw [List.flatMap_cons, List.flatMap_cons, elementsAt_eq_renderField hv hd, ih hvs]

theorem renderStep_entries (he : st.emission = .entries shape n) :
    renderStep s plan fields st = match Table.find? fields st.property with
      | some (.map captured) => renderExtras s plan shape captured
      | _ => [] := by
  rw [renderStep, he]
  cases st.placement <;>
  · dsimp only
    split <;> rename_i hf <;> simp [hf]

theorem renderStep_value (he : st.emission = .value shape) :
    renderStep s plan fields st = match st.placement, Table.find? fields st.property with
      | .element, some v => renderField s st.wire shape v
      | _, _ => [] := by
  rw [renderStep, he]
  cases st.placement
  · dsimp only
    split <;> rename_i hf <;> simp [hf]
  · rfl

/-- A part that a step writes has the attribute and the elements that the step renders. -/
theorem parts_eq_renderStep {ps : List (String × Placement × Draft)}
    (hv : ∀ v, Within fields v → RenderedInside s v) (h : ofStep? s plan fields st = some ps) :
    ps.filterMap attributeOf? = (renderAttribute? s fields st).toList ∧
      ps.flatMap elementsAt = renderStep s plan fields st := by
  rcases he : st.emission with shape | word | ⟨shape, n⟩
  · rw [renderStep_value he, renderAttribute?, he]
    rw [Encode.ofStep?_value he] at h
    rcases hf : Table.find? fields st.property with _ | v <;> rw [hf] at h
    · dsimp only at h
      split at h <;> cases h
      cases st.placement <;> exact ⟨rfl, rfl⟩
    · obtain ⟨d, hd, rfl⟩ := Option.map_eq_some_iff.1 h
      rcases hp : st.placement with _ | _
      · have helement : elementsAt (st.wire, .element, d) = renderField s st.wire shape v :=
          elementsAt_eq_renderField (hv v (.inl ⟨_, Table.mem_of_find? hf⟩)) hd
        exact ⟨rfl, by rw [List.flatMap_singleton, helement]⟩
      · refine ⟨?_, rfl⟩
        rw [List.filterMap_cons, attributeOf?_eq_spell hd]
        dsimp only [Option.bind_some]
        cases spell s shape v <;> rfl
  · rw [renderAttribute?, renderStep, he]
    rw [Encode.ofStep?_discriminator he] at h
    obtain ⟨w, rfl, rfl⟩ := Option.map_eq_some_iff.1 h
    cases st.placement <;> exact ⟨rfl, rfl⟩
  · rw [renderStep_entries he, renderAttribute?, he]
    rw [Encode.ofStep?_entries he] at h
    rcases hf : Table.find? fields st.property with _ | v <;> rw [hf] at h
    · cases h
      cases st.placement <;> exact ⟨rfl, rfl⟩
    · cases v
      case null =>
        cases h
        cases st.placement <;> exact ⟨rfl, rfl⟩
      case map es =>
        have hes := Table.mem_of_find? hf
        have helements := elementsOf_eq_renderExtras
          (fun e he => hv e.2 (.inr ⟨_, e.1, es, hes, he⟩)) h
        have hnone : ∀ x ∈ ps, attributeOf? x = none := by
          rintro ⟨name, placement, d⟩ hx
          obtain ⟨e, -, -, rfl, -⟩ := Outcome.forall₂_exists_right (ofExtras?_eq_some_iff.1 h) hx
          rfl
        refine ⟨?_, helements⟩
        rw [List.filterMap_eq_nil_iff.2 hnone]
        cases st.placement <;> rfl
      all_goals cases h

/-- **The content of the draft of an object is its rendering.** -/
theorem ofDraft_eq_renderObject {declared : Option Handle} {t : Handle}
    (hv : ∀ v, Within fields v → RenderedInside s v) (h : ofObject? s declared t fields = some d) :
    ofDraft d = renderObject s t fields := by
  simp only [ofObject?, Option.bind_eq_bind, Option.bind_eq_some_iff, Option.pure_def,
    Option.some.injEq, Outcome.mapM_eq_some_iff] at h
  obtain ⟨plan, hplan, pss, hpss, rfl⟩ := h
  rw [ofDraft, renderObject, (plan?_eq_some_iff.1 hplan).1, elementsOf_eq_flatMap]
  have hparts : pss.flatten.filterMap attributeOf? =
        plan.write.steps.filterMap (fun st => renderAttribute? s fields st) ∧
      pss.flatten.flatMap elementsAt = plan.write.steps.flatMap fun st => renderStep s plan fields st := by
    generalize plan.write.steps = steps at hpss
    induction hpss with
    | nil => exact ⟨rfl, rfl⟩
    | @cons st ps steps pss hst _ ih =>
      obtain ⟨hattributes, helements⟩ := parts_eq_renderStep hv hst
      rw [List.flatten_cons, List.filterMap_append, List.flatMap_append, hattributes, helements,
        ih.1, ih.2, List.flatMap_cons, List.filterMap_cons]
      exact ⟨by cases renderAttribute? s fields st <;> rfl, rfl⟩
  rw [hparts.1, hparts.2]

/-- **The content of a draft is the rendering of the value.** -/
theorem ofDraft_eq_renderValue (v : Value) : Rendered s v := by
  induction hn : sizeOf v using Nat.strongRecOn generalizing v with
  | ind n ih =>
    subst hn
    have hsmaller : ∀ w, sizeOf w < sizeOf v → Rendered s w := fun w hw => ih _ hw w rfl
    intro shape allowed d hd
    cases drafted_of_ofValue? hd with
    | null => exact renderValue_null.symm
    | scalar hs => rw [renderValue_of_spell hs, ofDraft]
    | object hparts =>
      rw [renderValue]
      refine ofDraft_eq_renderObject (fun w hw => ⟨hsmaller w (Value.sizeOf_lt_of_within hw), ?_⟩)
        hparts
      rintro vs rfl x hx
      exact hsmaller x (Nat.lt_trans (Value.sizeOf_lt_of_mem_list hx) (Value.sizeOf_lt_of_within hw))
    | @sequence element m layout vs ds hds =>
      cases layout with
      | wrapped item =>
        rw [ofDraft, renderValue,
          itemsOf_eq_render (fun w hw => hsmaller w (Value.sizeOf_lt_of_mem_list hw)) hds]
      | flattened =>
        rw [ofDraft, renderValue_flattened]
    | mapping hds =>
      rw [ofDraft, renderValue,
        entriesOf_eq_render (fun e he => hsmaller e.2 (Value.sizeOf_lt_of_mem_map he)) hds]

theorem renderedInside (v : Value) : RenderedInside s v :=
  ⟨ofDraft_eq_renderValue v, fun _ _ w _ => ofDraft_eq_renderValue w⟩

end Drafts

/-! ## One root -/

namespace Lexer

open Text

/-- **One element is all that is in front of the lexer**, but for events in front of it that open and
close nothing: behind its end tag nothing is left, and no other element is open. -/
inductive Sole : Element → Lexer → Prop where
  | event {e : Event} {el : Element} {lx lx₁ : Lexer} :
    next lx = .ok e lx₁ → e.Inert → Sole el lx₁ → Sole el lx
  | start {tag : Piece} {items : List (Item Element)} {lx lx₁ : Lexer} :
    next lx = .ok (.start tag) lx₁ → Holds items lx₁ ⟨[], []⟩ → Sole ⟨tag, false, items⟩ lx
  | empty {tag : Piece} {lx : Lexer} :
    next lx = .ok (.empty tag) ⟨[], []⟩ → Sole ⟨tag, true, []⟩ lx

/-- **A document has one root**, and the elements in it are those of its content. -/
theorem sole_document {name : String} {ns : Option String} {c : Content} (hn : isName name = true)
    (hc : c.Legible) : ∃ items, Reads items c ∧
      Sole ⟨Symbol.ofText (rootTag name ns c).inside, c.isAlone, items⟩
        ⟨Symbol.ofText (document name ns c), []⟩ := by
  have hnamed : (rootTag name ns c).Named := by
    refine ⟨hn, fun a ha => ?_⟩
    rcases List.mem_append.1 ha with ha | ha
    · obtain ⟨n, -, rfl⟩ := List.mem_map.1 ha
      exact isName_xmlns
    · exact hc.attributes.1 a ha
  rw [document, ofText_append, ofText_append, List.append_assoc]
  cases ha : c.isAlone with
  | true =>
    refine ⟨[], reads_nil_of_isAlone ha, .event next_declaration trivial (.empty ?_)⟩
    rw [Content.inside_of_isAlone ha]
    exact next_alone hnamed
  | false =>
    obtain ⟨items, hreads, hitems⟩ := exists_reads hc ha hn [] []
    rw [List.append_nil] at hitems
    exact ⟨items, hreads, .event next_declaration trivial (.start (next_opening hnamed) hitems)⟩

end Lexer

end Markup

/-! ## Documents -/

namespace Catalogue

/-- **The steps of a plan** are those of the properties that it covers, in the order of emission. -/
theorem PlannedBy.steps_forall₂ {c : Catalogue} {f : Format} {s : PlanSet} (P : c.PlannedBy f s)
    {t : Handle} {plan : TypePlan} (hplan : s.type? t = some plan) :
    List.Forall₂ (fun p st => st.property = p.name ∧ st.wire = wireName f p ∧
        (st.placement = .attribute ↔ isAttribute f p = true))
      (emissionOrder f (c.plannedProperties t)) plan.write.steps := by
  obtain ⟨o, ho, hplans⟩ := P.plans hplan
  obtain ⟨xs, H, hsteps⟩ := hplans.steps
  rw [hsteps]
  refine (steps_perm H).imp ?_
  rintro p st ⟨x, hx, rfl⟩
  cases hx with
  | field hc => simp [Planned.step, fieldStep, isAttribute, hc]
  | carrier hc => simp [Planned.step, carrierStep, isAttribute, hc]

end Catalogue

namespace Document

open Catalogue Markup Text

variable {c : Catalogue} {cancelled : Bool} {plans : PlanSet} {i : Instance} {doc : String}

/-- **A markup document is the element of the rendering** of the object that is written, behind the
declaration, and no other element: attributes and elements stand in it in the order of the properties
in effect, the lexer closes each element where the content ends, and nothing stands behind the root. -/
theorem write_xml_render (hc : c.Reachable) (hs : c.planAll .xml cancelled = .ok plans)
    (h : write .xml plans i = .ok doc) :
    ∃ plan, plans.type? i.type = some plan ∧
      doc = document plan.write.rootName plan.write.rootNamespace
        (renderObject plans i.type i.fields) ∧
      (∃ items, Reads items (renderObject plans i.type i.fields) ∧
        Lexer.Sole ⟨Symbol.ofText (rootTag plan.write.rootName plan.write.rootNamespace
            (renderObject plans i.type i.fields)).inside,
          (renderObject plans i.type i.fields).isAlone, items⟩ ⟨Symbol.ofText doc, []⟩) ∧
      ∀ t tplan, plans.type? t = some tplan →
        (c.plannedProperties t).Sublist (c.effectiveProperties t) ∧
        List.Forall₂ (fun p st => st.property = p.name ∧ st.wire = wireName .xml p ∧
            (st.placement = .attribute ↔ isAttribute .xml p = true))
          (emissionOrder .xml (c.plannedProperties t)) tplan.write.steps := by
  have P := planAll_spec hc hs
  obtain ⟨d, plan, hd, hplan, hlaid⟩ := write_xml_eq_document P.format h
  obtain ⟨o, oplan, pss, hw, rfl, -⟩ := Draft.written_of_ofObject? P hd
  obtain ⟨hroot, hleg, rfl⟩ := hlaid
    (hw.laid P.wellFormed fun v _ l r shape n d hs hd => Draft.lays_of_ofValue? P hs hd)
  rw [ofDraft_eq_renderObject (fun v _ => renderedInside v) hd] at hleg ⊢
  exact ⟨plan, hplan, rfl, Lexer.sole_document hroot hleg, fun t tplan ht =>
    ⟨List.filter_sublist, P.steps_forall₂ ht⟩⟩

end Document

/-! ## Posters -/

/-- A poster has a title, perhaps an identifier, which is an attribute, tags, which stand beside the
title, sizes and notes. -/
def Catalogue.posters : Catalogue :=
  .ofEntities [
    ⟨"Poster", .object
      { properties := [
          { name := "title", wire := "title", type := .named ⟨0⟩, required := true },
          { name := "id", wire := "id", type := .named ⟨0⟩, placement := .attribute },
          { name := "tags", wire := "tag", type := .collection .sequence (.named ⟨0⟩) false
            layout := .flattened },
          { name := "sizes", wire := "sizes", type := .collection .sequence (.named ⟨2⟩) false },
          { name := "notes", wire := "notes", type := .collection .mapping (.named ⟨0⟩) true }]
        rootNamespace := some "urn:posters" }⟩]

/-- The posters, sealed. -/
def Catalogue.sealedPosters : Catalogue := posters.withForest ⟨[], []⟩

theorem Catalogue.reachable_sealedPosters : sealedPosters.Reachable := by
  have hopen : posters.Reachable := .ofEntities (by decide)
  exact .trySeal hopen rfl

/-- The plans of the posters for markup. -/
def Catalogue.posterPlans : PlanSet := (sealedPosters.planAll .xml).toOption.getD ⟨.xml, [], []⟩

theorem Catalogue.planAll_sealedPosters : sealedPosters.planAll .xml = .ok posterPlans := by
  decide

namespace Document

open Catalogue Draft Markup

/-- A poster with an empty title, no sizes, and a note without a text. -/
def poster : Instance :=
  ⟨⟨8⟩, [("id", .text "p&q"), ("notes", .map [("by", .null), ("on", .text "x<y")]),
    ("sizes", .list []), ("tags", .list [.text "a", .text "b"]), ("title", .text "")]⟩

/-- The content of the poster. -/
def posterContent : Content :=
  .parts [("id", "p&q")] [("title", .text ""), ("tag", .text "a"), ("tag", .text "b"),
    ("sizes", .parts [] []), ("notes", .parts [] [
      ("entry", .parts [] [("key", .text "by")]),
      ("entry", .parts [] [("key", .text "on"), ("value", .text "x<y")])])]

/-- The document of the poster. -/
def posterText : String :=
  Writer.declaration ++ "<Poster xmlns=\"urn:posters\" id=\"p&amp;q\"><title></title><tag>a</tag>" ++
    "<tag>b</tag><sizes/><notes><entry><key>by</key></entry><entry><key>on</key>" ++
    "<value>x&lt;y</value></entry></notes></Poster>"

theorem write_xml_render_poster : write .xml posterPlans poster = .ok posterText ∧
    posterText = document "Poster" (some "urn:posters") posterContent := by
  have hplans : (posterPlans.type? ⟨8⟩).map
      (fun plan => (plan.write.rootName, plan.write.rootNamespace, plan.write.steps)) =
        some ("Poster", some "urn:posters",
          [⟨"id", "id", .value (.primitive .string), .attribute, false, false⟩,
            ⟨"title", "title", .value (.primitive .string), .element, true, false⟩,
            ⟨"tags", "tag", .value (.sequence (.primitive .string) false .flattened), .element,
              false, false⟩,
            ⟨"sizes", "sizes", .value (.sequence (.primitive .integer) false .standard), .element,
              false, false⟩,
            ⟨"notes", "notes", .value (.mapping (.primitive .string) true), .element, false,
              false⟩]) := by
    decide
  obtain ⟨plan, hplan, h⟩ := Option.map_eq_some_iff.1 hplans
  obtain ⟨hname, h⟩ := Prod.mk.inj h
  obtain ⟨hns, hsteps⟩ := Prod.mk.inj h
  have hplan? : plan? posterPlans none ⟨8⟩ = some plan :=
    plan?_eq_some_iff.2 ⟨hplan, nofun, by
      have habs : (posterPlans.type? ⟨8⟩).map TypePlan.isAbstract = some false := by decide
      rw [hplan] at habs
      exact Option.some.inj habs⟩
  have hdraft : ofInstance? posterPlans poster = some (.object [("id", .attribute, text "p&q"),
      ("title", .element, text ""), ("tag", .element, .sequence .flattened [text "a", text "b"]),
      ("sizes", .element, .sequence .standard []),
      ("notes", .element, .mapping [("by", .null), ("on", text "x<y")])]) := by
    simp [ofInstance?, poster, ofObject?, ofStep?, ofValue?, ofItems?, ofEntries?, Table.find?,
      hplan?, hsteps]
    rfl
  have hwrite : write .xml posterPlans poster = .ok posterText := by
    refine write_xml_eq_ok rfl hdraft ?_
    decide +kernel
  obtain ⟨plan', hplan', hdoc, -⟩ :=
    write_xml_render reachable_sealedPosters planAll_sealedPosters hwrite
  obtain rfl := Option.some.inj (hplan.symm.trans hplan')
  refine ⟨hwrite, hdoc.trans ?_⟩
  rw [hname, hns]
  simp [renderObject, renderAttribute?, renderStep, renderField, renderItems, renderEntries,
    renderElement, renderValue, spell, poster, posterContent, hplan, hsteps, Table.find?,
    Layout.standard]

end Document

end Marshal
