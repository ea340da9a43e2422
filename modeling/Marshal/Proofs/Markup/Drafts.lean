import Marshal.Document
import Marshal.Proofs.Markup.Content
import Marshal.Proofs.Wire.Draft

/-!
# Markup documents of drafts

What the writer makes of a draft is an element: `ofDraft` is its content. A start tag is held back
while nothing has been written into its element, so the writer inside of an element is in one of two
states, and `inside` is both of them. Each loop of writing then adds to the attributes and children
(`writeParts_run`, `writeItems_run`, `writeEntries_run`), and a document that is written is that of
the content of its draft (`Document.write_xml_eq_document`).
-/

namespace Marshal

namespace Draft

/-- Whether a draft is that of a null. -/
def isNull : Draft → Bool
  | .null => true
  | _ => false

/-- The draft of an object has parts. -/
theorem exists_parts {s : PlanSet} {i : Instance} {d : Draft} (h : ofInstance? s i = some d) :
    ∃ parts, d = .object parts := by
  rw [ofInstance?] at h
  exact exists_of_ofObject? h

/-- Whether a draft is that of a sequence without an element of its own. -/
def isFlattened : Draft → Bool
  | .sequence .flattened _ => true
  | _ => false

end Draft

namespace Markup

open Outcome

/-! ## The content of a draft -/

/-- The content of the entry of a key; a null has no value. -/
def entryContent (key : String) (value : Option Content) : Content :=
  .parts [] (("key", .text key) :: value.toList.map fun c => ("value", c))

/-- The attribute for a part of an object. -/
def attributeOf? : String × Placement × Draft → Option (String × String)
  | (name, .attribute, .scalar t _) => some (name, t.spelling)
  | _ => none

theorem name_of_attributeOf? {x : String × Placement × Draft} {a : String × String}
    (h : attributeOf? x = some a) : a.1 = x.1 := by
  unfold attributeOf? at h
  split at h
  · obtain rfl := Option.some.inj h
    rfl
  · cases h

mutual

/-- The content of the element of a draft. Nulls and flattened sequences have none. -/
def ofDraft : Draft → Content
  | .null => .parts [] []
  | .scalar t _ => .text t.spelling
  | .object parts => .parts (parts.filterMap attributeOf?) (elementsOf parts)
  | .sequence (.wrapped item) items => .parts [] (itemsOf item items)
  | .sequence .flattened _ => .parts [] []
  | .mapping entries => .parts [] (entriesOf entries)

/-- The elements for the parts of an object. The items of a flattened sequence all have its name. -/
def elementsOf : List (String × Placement × Draft) → List (String × Content)
  | [] => []
  | (_, .attribute, _) :: parts => elementsOf parts
  | (name, .element, .sequence .flattened items) :: parts => itemsOf name items ++ elementsOf parts
  | (name, .element, d) :: parts =>
    (if d.isNull then [] else [(name, ofDraft d)]) ++ elementsOf parts

/-- The elements for the items of a sequence. -/
def itemsOf (name : String) : List Draft → List (String × Content)
  | [] => []
  | d :: items => (if d.isNull then [] else [(name, ofDraft d)]) ++ itemsOf name items

/-- The elements for the entries of a mapping. -/
def entriesOf : List (String × Draft) → List (String × Content)
  | [] => []
  | (key, d) :: entries =>
    ("entry", entryContent key (if d.isNull then none else some (ofDraft d))) :: entriesOf entries

end

/-- The elements for one part of an object. -/
def elementsAt : String × Placement × Draft → List (String × Content)
  | (_, .attribute, _) => []
  | (name, .element, .sequence .flattened items) => itemsOf name items
  | (name, .element, d) => if d.isNull then [] else [(name, ofDraft d)]

theorem elementsOf_cons (p : String × Placement × Draft) (parts : List (String × Placement × Draft)) :
    elementsOf (p :: parts) = elementsAt p ++ elementsOf parts := by
  rcases p with ⟨name, _ | _, d⟩
  · cases d with
    | sequence layout items => cases layout <;> rw [elementsOf, elementsAt] <;> simp
    | _ => rw [elementsOf, elementsAt] <;> simp
  · rfl

theorem elementsOf_eq_flatMap (parts : List (String × Placement × Draft)) :
    elementsOf parts = parts.flatMap elementsAt := by
  induction parts with
  | nil => rfl
  | cons p parts ih => rw [elementsOf_cons, List.flatMap_cons, ih]

theorem elementsAt_of_not_flattened {name : String} {d : Draft} (h : d.isFlattened = false) :
    elementsAt (name, .element, d) = if d.isNull then [] else [(name, ofDraft d)] := by
  cases d with
  | sequence layout items =>
    cases layout with
    | flattened => cases h
    | wrapped => rfl
  | _ => rfl

/-- **A draft that markup can hold**: attributes are scalars with different names, and only the parts
of objects are flattened. -/
inductive Laid : Draft → Prop where
  | null : Laid .null
  | scalar {t : Token} {h : t.isFinite = true} : Laid (.scalar t h)
  | object {parts : List (String × Placement × Draft)}
    (scalars : ∀ name d, (name, .attribute, d) ∈ parts → d = .null ∨ ∃ t h, d = .scalar t h)
    (nodup : ((parts.filterMap attributeOf?).map Prod.fst).Nodup)
    (elements : ∀ name d, (name, .element, d) ∈ parts → d.isFlattened = false → Laid d)
    (flattened : ∀ name items, (name, .element, .sequence .flattened items) ∈ parts →
      ∀ d ∈ items, Laid d) : Laid (.object parts)
  | sequence {item : String} {items : List Draft} : (∀ d ∈ items, Laid d) →
    Laid (.sequence (.wrapped item) items)
  | mapping {entries : List (String × Draft)} : (∀ k d, (k, d) ∈ entries → Laid d) →
    Laid (.mapping entries)

theorem Laid.not_flattened {d : Draft} (h : Laid d) : d.isFlattened = false := by
  cases h <;> rfl

namespace Writer

open Draft Content

variable {o name : String} {t : Tag} {as : List (String × String)} {es : List (String × Content)}
  {stack : List OpenElement} {w w' : Writer} {pos : Position} {closesEntry : Bool} {d : Draft}

/-! ## The writer inside of an element -/

/-- The writer inside of an element with a start tag, into which elements have been written. -/
def inside (o : String) (t : Tag) (es : List (String × Content)) (stack : List OpenElement) : Writer :=
  if es.isEmpty then ⟨o, some t, stack⟩ else ⟨o ++ t.opening ++ renderAll es, none, stack⟩

/-- What has been written when the start tag has been. -/
def written (o : String) (t : Tag) (es : List (String × Content)) : String :=
  o ++ t.opening ++ renderAll es

@[simp] theorem inside_nil : inside o t [] stack = ⟨o, some t, stack⟩ := rfl

theorem inside_append {e : String × Content} :
    inside o t (es ++ [e]) stack = ⟨written o t (es ++ [e]), none, stack⟩ := by
  rw [inside, if_neg (by simp)]
  rfl

@[simp] theorem stack_inside : (inside o t es stack).stack = stack := by
  rw [inside]
  split <;> rfl

theorem written_append (fs : List (String × Content)) :
    written o t (es ++ fs) = written o t es ++ renderAll fs := by
  rw [written, renderAll_append, written]
  simp only [String.append_assoc]

theorem flush_inside : flush (inside o t es stack) = .ok () ⟨written o t es, none, stack⟩ := by
  rcases es with _ | ⟨e, es⟩
  · rw [written, renderAll, String.append_empty]
    rfl
  · rfl

/-- What closes with an element. -/
def entryEnd (closesEntry : Bool) : String := if closesEntry then "</entry>" else ""

theorem closeTag_pending (name : String) (closesEntry : Bool) :
    closeTag name closesEntry ⟨o, some t, stack⟩ =
      .ok () ⟨o ++ t.alone ++ entryEnd closesEntry, none, stack⟩ := by
  cases closesEntry
  · rw [entryEnd, if_neg Bool.false_ne_true, String.append_empty]
    rfl
  · rfl

theorem closeTag_flushed (name : String) (closesEntry : Bool) :
    closeTag name closesEntry ⟨o, none, stack⟩ =
      .ok () ⟨o ++ closing name ++ entryEnd closesEntry, none, stack⟩ := by
  cases closesEntry
  · rw [entryEnd, if_neg Bool.false_ne_true, String.append_empty]
    rfl
  · rfl

/-- The text of an element from its start tag to its end tag. -/
def elementText (t : Tag) (c : Content) : String :=
  (if c.isAlone then t.alone else t.opening) ++ c.inside t.name

/-- **An element is closed** after its start tag and its children. -/
theorem closeTag_inside (closesEntry : Bool) :
    closeTag t.name closesEntry (inside o t es stack) =
      .ok () ⟨o ++ elementText t (.parts as es) ++ entryEnd closesEntry, none, stack⟩ := by
  rw [elementText, Content.isAlone, Content.inside]
  rcases es with _ | ⟨e, es⟩
  · rw [List.isEmpty_nil, if_pos rfl, if_pos rfl, String.append_empty]
    exact closeTag_pending t.name closesEntry
  · rw [List.isEmpty_cons, if_neg Bool.false_ne_true, if_neg Bool.false_ne_true,
      ← String.append_assoc, ← String.append_assoc]
    exact closeTag_flushed t.name closesEntry

/-! ## Opening elements -/

/-- Opening an element at a position. -/
structure Opens (pos : Position) (w : Writer) (name : String) (closesEntry : Bool) (o : String) :
    Prop where
  notAttribute : ∀ name, pos ≠ .field name .attribute
  run : ∀ a w', openAt pos w = .ok a w' →
    isName name = true ∧ a = (name, closesEntry) ∧ w' = ⟨o, some ⟨name, []⟩, w.stack⟩

theorem checkName_run {u : Unit} (h : checkName name w = .ok u w') : isName name = true ∧ w' = w := by
  unfold checkName at h
  split at h
  · rename_i hn
    cases h
    exact ⟨hn, rfl⟩
  · cases h

theorem openTag_run {u : Unit} (h : openTag name (inside o t es stack) = .ok u w') :
    isName name = true ∧ w' = ⟨written o t es, some ⟨name, []⟩, stack⟩ := by
  obtain ⟨_, w₁, hcheck, h⟩ := run_bind_eq_ok_iff.1 h
  obtain ⟨hn, rfl⟩ := checkName_run hcheck
  rw [run_bind flush_inside] at h
  cases h
  exact ⟨hn, rfl⟩

theorem opens_field : Opens (.field name .element) (inside o t es stack) name false (written o t es) where
  notAttribute := by simp
  run a w' h := by
    obtain ⟨_, w₁, hopen, h⟩ := run_bind_eq_ok_iff.1 h
    obtain ⟨hn, rfl⟩ := openTag_run hopen
    cases h
    exact ⟨hn, rfl, by rw [stack_inside]⟩

theorem opens_item {item : String} {wrapper : Option String} {b : Bool} :
    Opens .item (inside o t es (.sequence item wrapper b :: stack)) item false (written o t es) where
  notAttribute := by simp
  run a w' h := by
    have hitem : itemName (inside o t es (.sequence item wrapper b :: stack)) =
        .ok item (inside o t es (.sequence item wrapper b :: stack)) := by
      refine (run_bind (rfl : (get : Writing Writer Writer) _ = .ok _ _)).trans ?_
      rw [stack_inside]
      rfl
    obtain ⟨_, w₁, hrun, h⟩ := run_bind_eq_ok_iff.1 h
    rw [hitem] at hrun
    cases hrun
    obtain ⟨_, w₂, hopen, h⟩ := run_bind_eq_ok_iff.1 h
    obtain ⟨hn, rfl⟩ := openTag_run hopen
    cases h
    exact ⟨hn, rfl, by rw [stack_inside]⟩

theorem elementText_tag (name : String) (c : Content) :
    elementText (c.tag name) c = c.opening name ++ c.inside name := rfl

theorem renderAll_singleton (name : String) (c : Content) :
    renderAll [(name, c)] = elementText (c.tag name) c := by
  rw [renderAll, renderAll, String.append_empty, elementText_tag]

theorem renderAll_pair (e f : String × Content) :
    renderAll [e, f] = renderAll [e] ++ renderAll [f] := renderAll_append [e] [f]

/-- An element that holds a text. -/
theorem textElement_run (hn : isName name = true) (s : String) :
    textElement name s ⟨o, none, stack⟩ =
      .ok () ⟨o ++ renderAll [(name, .text s)], none, stack⟩ := by
  have hcheck : checkName name ⟨o, none, stack⟩ = .ok () ⟨o, none, stack⟩ := by
    rw [checkName, if_pos hn]
    rfl
  have hopen : openTag name ⟨o, none, stack⟩ = .ok () ⟨o, some ⟨name, []⟩, stack⟩ :=
    (run_bind hcheck).trans rfl
  refine (run_bind hopen).trans ((run_bind (rfl : flush _ = _)).trans ?_)
  refine (run_bind (rfl : emit _ _ = _)).trans ((closeTag_flushed name false).trans ?_)
  simp only [renderAll_singleton, elementText, Content.isAlone, Content.inside, Bool.false_eq_true,
    if_false, entryEnd, String.append_empty, Tag.opening, ← String.append_assoc]
  rfl

/-- An entry with its key, before its value. -/
theorem beginEntry_inside (key : String) :
    beginEntry key (inside o t es stack) =
      .ok () (inside (written o t es) ⟨"entry", []⟩ [("key", .text key)] stack) := by
  refine (run_bind flush_inside).trans ((run_bind (rfl : emit _ _ = _)).trans ?_)
  exact textElement_run (by decide) key

theorem opens_entry (key : String) :
    Opens (.entry key) (inside o t es stack) "value" true
      (written (written o t es) ⟨"entry", []⟩ [("key", .text key)]) where
  notAttribute := by simp
  run a w' h := by
    obtain ⟨_, w₁, hbegin, h⟩ := run_bind_eq_ok_iff.1 h
    rw [beginEntry_inside] at hbegin
    cases hbegin
    obtain ⟨_, w₂, hopen, h⟩ := run_bind_eq_ok_iff.1 h
    obtain ⟨hn, rfl⟩ := openTag_run hopen
    cases h
    exact ⟨hn, rfl, by rw [stack_inside]⟩

/-! ## Writing drafts -/

/-- Writing a draft that is no null at an opened position writes its element. -/
def WritesElement (d : Draft) : Prop :=
  ∀ (pos : Position) (w w' : Writer) (u : Unit) (name : String) (closesEntry : Bool) (o : String),
    Opens pos w name closesEntry o → write pos d w = .ok u w' →
      isName name = true ∧ (ofDraft d).Legible ∧
        w' = ⟨o ++ renderAll [(name, ofDraft d)] ++ entryEnd closesEntry, none, w.stack⟩

/-- Elements that can be read. -/
def Sound (es : List (String × Content)) : Prop :=
  ∀ n c, (n, c) ∈ es → isName n = true ∧ c.Legible

theorem sound_nil : Sound [] := by simp [Sound]

theorem sound_singleton {c : Content} : Sound [(name, c)] ↔ isName name = true ∧ c.Legible := by
  simp [Sound]

theorem Sound.append {fs : List (String × Content)} (he : Sound es) (hf : Sound fs) :
    Sound (es ++ fs) := fun n c hm => (List.mem_append.1 hm).elim (he n c) (hf n c)

theorem writeItems_run {items : List Draft}
    (h : ∀ d ∈ items, d.isNull = false → WritesElement d) {item : String} {wrapper : Option String}
    {b : Bool} {u : Unit} (hw : writeItems items (inside o t es (.sequence item wrapper b :: stack)) = .ok u w') :
    Sound (itemsOf item items) ∧
      w' = inside o t (es ++ itemsOf item items) (.sequence item wrapper b :: stack) := by
  induction items generalizing es with
  | nil =>
    cases hw
    rw [itemsOf, List.append_nil]
    exact ⟨sound_nil, rfl⟩
  | cons d items ih =>
    obtain ⟨hd, hds⟩ := List.forall_mem_cons.1 h
    obtain ⟨_, w₁, hrun, hw⟩ := run_bind_eq_ok_iff.1 hw
    rw [itemsOf]
    cases hn : d.isNull with
    | true =>
      obtain rfl : d = .null := by cases d <;> first | rfl | cases hn
      cases hrun
      rw [if_pos rfl, List.nil_append]
      exact ih hds hw
    | false =>
      obtain ⟨hname, hleg, rfl⟩ := hd hn _ _ _ _ _ _ _ opens_item hrun
      rw [if_neg Bool.false_ne_true]
      have hinside : (⟨written o t es ++ renderAll [(item, ofDraft d)] ++ entryEnd false, none,
          (inside o t es (.sequence item wrapper b :: stack)).stack⟩ : Writer) =
          inside o t (es ++ [(item, ofDraft d)]) (.sequence item wrapper b :: stack) := by
        rw [inside_append, written_append, stack_inside, entryEnd, if_neg Bool.false_ne_true,
          String.append_empty]
      rw [hinside] at hw
      obtain ⟨hsound, rfl⟩ := ih hds hw
      refine ⟨(sound_singleton.2 ⟨hname, hleg⟩).append hsound, ?_⟩
      rw [List.append_assoc]

theorem renderAll_entryContent (key : String) (value : Option Content) :
    renderAll [("entry", entryContent key value)] =
      "<entry>" ++ renderAll (("key", .text key) :: value.toList.map fun c => ("value", c)) ++
        "</entry>" := by
  rw [renderAll_singleton, elementText, entryContent, Content.isAlone, Content.inside]
  simp only [List.isEmpty_cons, Bool.false_eq_true, if_false, ← String.append_assoc]
  rfl

theorem legible_entryContent {key : String} {value : Option Content}
    (h : ∀ c, value = some c → c.Legible) : (entryContent key value).Legible := by
  have hmem : ∀ {n c}, (n, c) ∈ ("key", .text key) :: (value.toList.map fun c => ("value", c)) →
      (n = "key" ∧ c = .text key) ∨ (n = "value" ∧ value = some c) := by
    intro n c hm
    rcases List.mem_cons.1 hm with he | hm
    · exact .inl (Prod.mk.inj he)
    · obtain ⟨d, hd, he⟩ := List.mem_map.1 hm
      obtain ⟨rfl, rfl⟩ := Prod.mk.inj he
      exact .inr ⟨rfl, Option.mem_toList.1 hd⟩
  refine .parts (by simp) List.nodup_nil (fun n c hm => ?_) fun n c hm => ?_
  · rcases hmem hm with ⟨rfl, -⟩ | ⟨rfl, -⟩
    · exact by decide
    · exact by decide
  · rcases hmem hm with ⟨-, rfl⟩ | ⟨-, hc⟩
    · exact .text
    · exact h c hc

theorem writeEntries_run {entries : List (String × Draft)}
    (h : ∀ k d, (k, d) ∈ entries → d.isNull = false → WritesElement d) {u : Unit}
    (hw : writeEntries entries (inside o t es stack) = .ok u w') :
    Sound (entriesOf entries) ∧ w' = inside o t (es ++ entriesOf entries) stack := by
  induction entries generalizing es with
  | nil =>
    cases hw
    rw [entriesOf, List.append_nil]
    exact ⟨sound_nil, rfl⟩
  | cons e entries ih =>
    obtain ⟨key, d⟩ := e
    obtain ⟨_, w₁, hrun, hw⟩ := run_bind_eq_ok_iff.1 hw
    have hrest := fun k d hm => h k d (List.mem_cons_of_mem _ hm)
    -- after the entry the writer is inside of the element with one more child
    have hentry : ∃ value, value = (if d.isNull then none else some (ofDraft d)) ∧
        (∀ c, value = some c → c.Legible) ∧
        w₁ = inside o t (es ++ [("entry", entryContent key value)]) stack := by
      cases hn : d.isNull with
      | true =>
        obtain rfl : d = .null := by cases d <;> first | rfl | cases hn
        refine ⟨none, by rw [if_pos rfl], by simp, ?_⟩
        rw [write] at hrun
        obtain ⟨_, w₂, hbegin, hrun⟩ := run_bind_eq_ok_iff.1 hrun
        rw [beginEntry_inside] at hbegin
        cases hbegin
        cases hrun
        rw [inside_append, written_append, renderAll_entryContent]
        simp only [Option.toList_none, List.map_nil, ← String.append_assoc]
        rfl
      | false =>
        obtain ⟨hname, hleg, rfl⟩ := h key d List.mem_cons_self hn _ _ _ _ _ _ _ (opens_entry key) hrun
        refine ⟨some (ofDraft d), by rw [if_neg Bool.false_ne_true], fun c hc => ?_, ?_⟩
        · rw [← Option.some.inj hc]
          exact hleg
        · rw [inside_append, written_append, renderAll_entryContent, Option.toList_some,
            List.map_singleton, renderAll_pair, stack_inside, entryEnd, if_pos rfl, written.eq_1 _ ⟨"entry", []⟩]
          simp only [← String.append_assoc]
          rfl
    obtain ⟨value, hvalue, hleg, rfl⟩ := hentry
    obtain ⟨hsound, rfl⟩ := ih hrest hw
    rw [entriesOf, ← hvalue]
    have hentry : Sound [("entry", entryContent key value)] :=
      sound_singleton.2 ⟨by decide, legible_entryContent hleg⟩
    refine ⟨hentry.append hsound, ?_⟩
    rw [List.append_assoc]
    rfl

/-- An attribute is put on a start tag that is still held back. -/
theorem putAttribute_run {value : String} {u : Unit}
    (h : putAttribute name value (inside o t es stack) = .ok u w') :
    isName name = true ∧
      w' = inside o { t with attributes := t.attributes ++ [(name, value)] } es stack := by
  obtain ⟨_, w₁, hcheck, h⟩ := run_bind_eq_ok_iff.1 h
  obtain ⟨hn, rfl⟩ := checkName_run hcheck
  refine ⟨hn, ?_⟩
  rcases es with _ | ⟨e, es⟩
  · cases h
    rfl
  · cases h

/-- Writing a part of an object adds its attribute or its elements. -/
def WritesPart (p : String × Placement × Draft) : Prop :=
  ∀ (o : String) (t : Tag) (es : List (String × Content)) (stack : List OpenElement) (u : Unit)
    (w' : Writer), write (.field p.1 p.2.1) p.2.2 (inside o t es stack) = .ok u w' →
      (∀ a, attributeOf? p = some a → isName a.1 = true) ∧ Sound (elementsAt p) ∧
        w' = inside o ⟨t.name, t.attributes ++ (attributeOf? p).toList⟩ (es ++ elementsAt p) stack

theorem writesPart_null (placement : Placement) : WritesPart (name, placement, .null) := by
  intro o t es stack u w' h
  cases h
  have hnone : attributeOf? (name, placement, .null) = none := by cases placement <;> rfl
  have hnil : elementsAt (name, placement, .null) = [] := by cases placement <;> rfl
  rw [hnone, hnil, Option.toList_none, List.append_nil, List.append_nil]
  exact ⟨by simp, sound_nil, rfl⟩

theorem writesPart_attribute (token : Token) (h : token.isFinite = true) :
    WritesPart (name, .attribute, .scalar token h) := by
  intro o t es stack u w' hw
  obtain ⟨hn, rfl⟩ := putAttribute_run hw
  refine ⟨fun a ha => ?_, sound_nil, ?_⟩
  · obtain rfl := Option.some.inj ha
    exact hn
  · rw [elementsAt, List.append_nil]
    rfl

theorem writesPart_element (hf : d.isFlattened = false) (hn : d.isNull = false)
    (h : WritesElement d) : WritesPart (name, .element, d) := by
  have hat : elementsAt (name, .element, d) = [(name, ofDraft d)] := by
    rw [elementsAt_of_not_flattened hf, hn, if_neg Bool.false_ne_true]
  have hnone : attributeOf? (name, .element, d) = none := rfl
  intro o t es stack u w' hw
  obtain ⟨hname, hleg, rfl⟩ := h _ _ _ _ _ _ _ opens_field hw
  rw [hat, hnone, Option.toList_none, List.append_nil]
  refine ⟨by simp, sound_singleton.2 ⟨hname, hleg⟩, ?_⟩
  rw [inside_append, written_append, stack_inside, entryEnd, if_neg Bool.false_ne_true,
    String.append_empty]

theorem writesPart_flattened {items : List Draft}
    (h : ∀ d ∈ items, d.isNull = false → WritesElement d) :
    WritesPart (name, .element, .sequence .flattened items) := by
  intro o t es stack u w' hw
  obtain ⟨_, w₁, hbegin, hw⟩ := run_bind_eq_ok_iff.1 hw
  have hopen : Sink.beginContainer (.field name .element)
      (Encode.containerAt (.field name .element) .flattened) (inside o t es stack) =
        .ok () (inside o t es (.sequence name none false :: stack)) := by
    rcases es with _ | ⟨e, es⟩ <;> rfl
  rw [hopen] at hbegin
  cases hbegin
  obtain ⟨_, w₂, hitems, hw⟩ := run_bind_eq_ok_iff.1 hw
  obtain ⟨hsound, rfl⟩ := writeItems_run h hitems
  have hclose : ∀ es, (Sink.endContainer : Writing Writer Unit)
      (inside o t es (.sequence name none false :: stack)) = .ok () (inside o t es stack) := by
    rintro (_ | ⟨e, es⟩) <;> rfl
  rw [hclose] at hw
  cases hw
  refine ⟨by simp [attributeOf?], hsound, ?_⟩
  rw [elementsAt, attributeOf?, Option.toList_none, List.append_nil]
  · simp

theorem writeParts_run {parts : List (String × Placement × Draft)} (h : ∀ p ∈ parts, WritesPart p)
    {u : Unit} (hw : writeParts parts (inside o t es stack) = .ok u w') :
    (∀ a ∈ parts.filterMap attributeOf?, isName a.1 = true) ∧ Sound (elementsOf parts) ∧
      w' = inside o ⟨t.name, t.attributes ++ parts.filterMap attributeOf?⟩
        (es ++ elementsOf parts) stack := by
  induction parts generalizing t es with
  | nil =>
    cases hw
    rw [elementsOf, List.filterMap_nil, List.append_nil, List.append_nil]
    exact ⟨by simp, sound_nil, rfl⟩
  | cons p parts ih =>
    obtain ⟨hp, hps⟩ := List.forall_mem_cons.1 h
    obtain ⟨_, w₁, hrun, hw⟩ := run_bind_eq_ok_iff.1 hw
    obtain ⟨hname, hsound, rfl⟩ := hp _ _ _ _ _ _ hrun
    obtain ⟨hnames, hsounds, rfl⟩ := ih hps hw
    have hattributes : (p :: parts).filterMap attributeOf? =
        (attributeOf? p).toList ++ parts.filterMap attributeOf? := by
      rw [List.filterMap_cons]
      cases attributeOf? p <;> rfl
    rw [hattributes, elementsOf_cons]
    refine ⟨fun a ha => ?_, hsound.append hsounds, by rw [List.append_assoc, List.append_assoc]⟩
    rcases List.mem_append.1 ha with ha | ha
    · exact hname a (Option.mem_toList.1 ha)
    · exact hnames a ha

/-- What is written between the opening of a structure and its end. -/
theorem close_structure {name : String} {as : List (String × String)} (closesEntry : Bool) :
    closeTag name closesEntry (inside o ⟨name, as⟩ es stack) =
      .ok () ⟨o ++ renderAll [(name, .parts as es)] ++ entryEnd closesEntry, none, stack⟩ := by
  rw [renderAll_singleton]
  exact closeTag_inside (t := ⟨name, as⟩) closesEntry

theorem writesElement_scalar (token : Token) (h : token.isFinite = true) :
    WritesElement (.scalar token h) := by
  intro pos w w' u name closesEntry o hopens hw
  have hscalar : write pos (.scalar token h) = (do
      let a ← openAt pos
      flush
      emit (escape token.spelling)
      closeTag a.1 a.2 : Writing Writer Unit) := by
    rw [write]
    rcases pos with _ | ⟨n, _ | _⟩ | _ | _
    case field.attribute => exact absurd rfl (hopens.notAttribute n)
    all_goals rfl
  rw [hscalar] at hw
  obtain ⟨a, w₁, hopen, hw⟩ := run_bind_eq_ok_iff.1 hw
  obtain ⟨hn, rfl, rfl⟩ := hopens.run a w₁ hopen
  refine ⟨hn, .text, ?_⟩
  change (do flush; emit (escape token.spelling); closeTag name closesEntry : Writing Writer Unit) _ =
    _ at hw
  rw [run_bind (rfl : flush _ = _), run_bind (rfl : emit _ _ = _), closeTag_flushed] at hw
  cases hw
  simp only [renderAll_singleton, elementText, ofDraft, Content.isAlone, Content.inside,
    Bool.false_eq_true, if_false, Tag.opening, ← String.append_assoc]
  rfl

theorem legible_parts {as : List (String × String)} (ha : ∀ a ∈ as, isName a.1 = true)
    (hn : (as.map Prod.fst).Nodup) (he : Sound es) : (Content.parts as es).Legible :=
  .parts ha hn (fun n c hm => (he n c hm).1) fun n c hm => (he n c hm).2

/-- An object is written from the start tag that is held back. -/
theorem writeObject_run {parts : List (String × Placement × Draft)}
    (h : ∀ p ∈ parts, WritesPart p) (hn : ((parts.filterMap attributeOf?).map Prod.fst).Nodup)
    {u : Unit} (hw : (do writeParts parts; endObject : Writing Writer Unit)
      ⟨o, some ⟨name, as⟩, .object name closesEntry :: stack⟩ = .ok u w') :
    (ofDraft (.object parts)).Legible ∧
      w' = ⟨o ++ elementText ⟨name, as ++ parts.filterMap attributeOf?⟩ (ofDraft (.object parts)) ++
        entryEnd closesEntry, none, stack⟩ := by
  obtain ⟨_, w₁, hparts, hw⟩ := run_bind_eq_ok_iff.1 hw
  rw [← inside_nil] at hparts
  obtain ⟨hnames, hsound, rfl⟩ := writeParts_run h hparts
  have hpop : ∀ es, endObject (inside o ⟨name, as ++ parts.filterMap attributeOf?⟩ es
      (.object name closesEntry :: stack)) =
        closeTag name closesEntry (inside o ⟨name, as ++ parts.filterMap attributeOf?⟩ es stack) := by
    rintro (_ | ⟨e, es⟩) <;> rfl
  rw [hpop, List.nil_append] at hw
  rw [ofDraft]
  refine ⟨legible_parts hnames hn hsound, ?_⟩
  exact ((closeTag_inside (t := ⟨name, _⟩) closesEntry).symm.trans hw |> EStateM.Result.ok.inj).2.symm

theorem writesElement_object {parts : List (String × Placement × Draft)}
    (h : ∀ p ∈ parts, WritesPart p) (hn : ((parts.filterMap attributeOf?).map Prod.fst).Nodup) :
    WritesElement (.object parts) := by
  intro pos w w' u name closesEntry o hopens hw
  obtain ⟨_, w₁, hbegin, hw⟩ := run_bind_eq_ok_iff.1 hw
  obtain ⟨a, w₂, hopen, hbegin⟩ := run_bind_eq_ok_iff.1 hbegin
  obtain ⟨hname, rfl, rfl⟩ := hopens.run a w₂ hopen
  cases hbegin
  obtain ⟨hleg, rfl⟩ := writeObject_run h hn hw
  refine ⟨hname, hleg, ?_⟩
  rw [renderAll_singleton, List.nil_append]
  rw [ofDraft]
  rfl

/-- What opens a tag, writes children and ends the tag writes an element. -/
theorem writesElement_of_children {d : Draft} (top : String × Bool → OpenElement)
    {children close : Writing Writer Unit} (hd : ofDraft d = .parts [] es)
    (hwrite : ∀ pos, write pos d = do
      (do let opened ← openAt pos; push (top opened)); children; close)
    (hchildren : ∀ {o name b stack w' u},
      children (inside o ⟨name, []⟩ [] (top (name, b) :: stack)) = .ok u w' →
        Sound es ∧ w' = inside o ⟨name, []⟩ es (top (name, b) :: stack))
    (hclose : ∀ o t es name b stack,
      close (inside o t es (top (name, b) :: stack)) = closeTag name b (inside o t es stack)) :
    WritesElement d := by
  intro pos w w' u name closesEntry o hopens hw
  rw [hwrite] at hw
  obtain ⟨_, w₁, hbegin, hw⟩ := run_bind_eq_ok_iff.1 hw
  obtain ⟨a, w₂, hopen, hbegin⟩ := run_bind_eq_ok_iff.1 hbegin
  obtain ⟨hname, rfl, rfl⟩ := hopens.run a w₂ hopen
  cases hbegin
  obtain ⟨_, w₃, hrun, hw⟩ := run_bind_eq_ok_iff.1 hw
  rw [← inside_nil] at hrun
  obtain ⟨hsound, rfl⟩ := hchildren hrun
  rw [hclose, close_structure] at hw
  cases hw
  rw [hd]
  exact ⟨hname, legible_parts (by simp) List.nodup_nil hsound, rfl⟩

theorem writesElement_sequence {item : String} {items : List Draft}
    (h : ∀ d ∈ items, d.isNull = false → WritesElement d) :
    WritesElement (.sequence (.wrapped item) items) := by
  refine writesElement_of_children (fun a => .sequence item (some a.1) a.2) (by rw [ofDraft])
    (fun _ => rfl) (writeItems_run h) ?_
  rintro o t (_ | ⟨e, es⟩) name b stack <;> rfl

theorem writesElement_mapping {entries : List (String × Draft)}
    (h : ∀ k d, (k, d) ∈ entries → d.isNull = false → WritesElement d) :
    WritesElement (.mapping entries) := by
  refine writesElement_of_children (fun a => .mapping a.1 a.2) (by rw [ofDraft])
    (fun _ => rfl) (writeEntries_run h) ?_
  rintro o t (_ | ⟨e, es⟩) name b stack <;> rfl

theorem writesPart_of_attribute (h : d = .null ∨ ∃ t ht, d = .scalar t ht) :
    WritesPart (name, .attribute, d) := by
  rcases h with rfl | ⟨t, ht, rfl⟩
  · exact writesPart_null .attribute
  · exact writesPart_attribute t ht

theorem writesPart_of_element (h : d.isFlattened = false → d.isNull = false → WritesElement d)
    (hi : ∀ items, d = .sequence .flattened items → ∀ d ∈ items, d.isNull = false → WritesElement d) :
    WritesPart (name, .element, d) := by
  cases hn : d.isNull with
  | true =>
    obtain rfl : d = .null := by cases d <;> first | rfl | cases hn
    exact writesPart_null .element
  | false =>
    cases hf : d.isFlattened with
    | false => exact writesPart_element hf hn (h hf hn)
    | true =>
      obtain ⟨items, rfl⟩ : ∃ items, d = .sequence .flattened items := by
        cases d with
        | sequence layout items => cases layout <;> simp_all [isFlattened]
        | _ => cases hf
      exact writesPart_flattened (hi items rfl)

/-- **Writing a draft writes its element.** -/
theorem writesElement_of_laid (hl : Laid d) (hn : d.isNull = false) : WritesElement d := by
  induction hl with
  | null => cases hn
  | @scalar t h => exact writesElement_scalar t h
  | object scalars nodup _ _ ihe ihf =>
    refine writesElement_object (fun ⟨n, placement, d⟩ hp => ?_) nodup
    rcases placement with _ | _
    · refine writesPart_of_element (ihe n d hp) fun items he => ihf n items ?_
      rwa [← he]
    · exact writesPart_of_attribute (scalars n d hp)
  | sequence _ ih => exact writesElement_sequence ih
  | mapping _ ih => exact writesElement_mapping ih

theorem writesPart_of_laid {parts : List (String × Placement × Draft)} (hl : Laid (.object parts)) :
    ∀ p ∈ parts, WritesPart p := by
  cases hl with
  | object scalars nodup elements flattened =>
    rintro ⟨n, _ | _, d⟩ hp
    · refine writesPart_of_element (fun hf => writesElement_of_laid (elements n d hp hf)) ?_
      rintro items rfl d hd
      exact writesElement_of_laid (flattened n items hp d hd)
    · exact writesPart_of_attribute (scalars n d hp)

/-! ## The root -/

/-- The writer in the root of a document. -/
theorem beginObject_root {ns : Option String} {u : Unit}
    (h : (Sink.beginObject (.root name ns) : Writing Writer Unit) Sink.start = .ok u w') :
    isName name = true ∧
      w' = ⟨declaration, some ⟨name, ns.toList.map fun n => ("xmlns", n)⟩, [.object name false]⟩ := by
  obtain ⟨a, w₁, hopen, h⟩ := run_bind_eq_ok_iff.1 h
  obtain ⟨_, w₂, hcheck, hopen⟩ := run_bind_eq_ok_iff.1 hopen
  obtain ⟨hn, rfl⟩ := checkName_run hcheck
  have hrun : openTag name ⟨declaration, none, []⟩ = .ok () ⟨declaration, some ⟨name, []⟩, []⟩ := by
    have hcheck : checkName name ⟨declaration, none, []⟩ = .ok () ⟨declaration, none, []⟩ := by
      rw [checkName, if_pos hn]
      rfl
    exact (run_bind hcheck).trans rfl
  rw [run_bind (rfl : emit _ _ = .ok () ⟨declaration, none, []⟩), run_bind hrun] at hopen
  refine ⟨hn, ?_⟩
  cases ns <;>
  · cases hopen
    cases h
    rfl

/-- **A root is written as a document.** -/
theorem write_root_run {parts : List (String × Placement × Draft)} (hl : Laid (.object parts))
    {ns : Option String} {u : Unit}
    (hw : (write (.root name ns) (.object parts) : Writing Writer Unit) Sink.start = .ok u w') :
    isName name = true ∧ (ofDraft (.object parts)).Legible ∧
      w' = ⟨document name ns (ofDraft (.object parts)), none, []⟩ := by
  obtain ⟨_, w₁, hbegin, hw⟩ := run_bind_eq_ok_iff.1 hw
  obtain ⟨hn, rfl⟩ := beginObject_root hbegin
  have hnodup : ((parts.filterMap attributeOf?).map Prod.fst).Nodup := by
    cases hl
    assumption
  obtain ⟨hleg, rfl⟩ := writeObject_run (writesPart_of_laid hl) hnodup hw
  refine ⟨hn, hleg, ?_⟩
  rw [entryEnd, if_neg Bool.false_ne_true, String.append_empty, elementText, document, rootTag,
    String.append_assoc]
  rw [ofDraft, Content.attributes]

end Writer

end Markup

namespace Document

open Markup

variable {plans : PlanSet} {i : Instance} {doc : String}

/-- The document that a draft is written as in a root. -/
def draftDocument (name : String) (ns : Option String) (d : Draft) : Except EncodeError String :=
  match (Draft.write (.root name ns) d : Writing Writer Unit) Sink.start with
  | .ok _ w => Sink.finish w
  | .error e _ => .error e

/-- An object that has a draft is encoded as markup by writing the draft. -/
theorem write_xml_of_draft {plan : TypePlan} {d : Draft} (hf : plans.format = .xml)
    (hplan : plans.type? i.type = some plan) (hd : Draft.ofInstance? plans i = some d) :
    write .xml plans i = draftDocument plan.write.rootName plan.write.rootNamespace d := by
  have hroot := Encode.root_renders (σ := Writer) hplan
  rw [hd] at hroot
  rw [write, if_pos hf]
  show encode Writer plans i = _
  rw [encode, show Encode.root plans i = _ from hroot, draftDocument]
  rcases (Draft.write (.root plan.write.rootName plan.write.rootNamespace) d :
    Writing Writer Unit) Sink.start with ⟨u, w⟩ | ⟨e, w⟩ <;> rfl

/-- A document is written when the draft of the object is written as it. -/
theorem write_xml_eq_ok {d : Draft} (hf : plans.format = .xml)
    (hd : Draft.ofInstance? plans i = some d)
    (hrun : (plans.type? i.type).map (fun plan =>
      draftDocument plan.write.rootName plan.write.rootNamespace d) = some (.ok doc)) :
    write .xml plans i = .ok doc := by
  obtain ⟨plan, hplan, hrun⟩ := Option.map_eq_some_iff.1 hrun
  exact (write_xml_of_draft hf hplan hd).trans hrun

/-- **An XML document is that of the content of a draft** that markup can hold. -/
theorem write_xml_eq_document (hf : plans.format = .xml) (h : write .xml plans i = .ok doc) :
    ∃ d plan, Draft.ofInstance? plans i = some d ∧ plans.type? i.type = some plan ∧
      (Laid d → isName plan.write.rootName = true ∧ (ofDraft d).Legible ∧
        doc = document plan.write.rootName plan.write.rootNamespace (ofDraft d)) := by
  have hencode : encode Writer plans i = .ok doc := by
    rwa [write, if_pos hf] at h
  rw [encode] at hencode
  rcases hplan : plans.type? i.type with _ | plan
  · obtain ⟨e, w, hw⟩ := Encode.root_fails (σ := Writer) hplan Sink.start
    simp [hw] at hencode
  · rcases hd : Draft.ofInstance? plans i with _ | d
    · have hroot := Encode.root_renders (σ := Writer) hplan
      rw [hd] at hroot
      obtain ⟨e, w, hw⟩ := hroot Sink.start
      simp [hw] at hencode
    · rw [write_xml_of_draft hf hplan hd, draftDocument] at h
      refine ⟨d, plan, rfl, rfl, fun hl => ?_⟩
      obtain ⟨parts, rfl⟩ : ∃ parts, d = .object parts := Draft.exists_parts hd
      rcases hw : (Draft.write (.root plan.write.rootName plan.write.rootNamespace) (.object parts) :
        Writing Writer Unit) Sink.start with ⟨u, w⟩ | ⟨e, w⟩
      · obtain ⟨hn, hleg, rfl⟩ := Writer.write_root_run hl hw
        rw [hw] at h
        exact ⟨hn, hleg, (Except.ok.inj h).symm⟩
      · rw [hw] at h
        cases h

end Document

end Marshal
