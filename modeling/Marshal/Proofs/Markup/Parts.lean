import Marshal.Proofs.Markup.Drafts
import Marshal.Proofs.Markup.Written
import Marshal.Proofs.Wire.Subtypes

/-!
# The parts of an object in markup

Every draft of a planned value can be laid out (`Draft.lays_of_ofValue?`). The reader drops the
prefixes of names and the declarations of namespaces; where there are none, it finds the parts of an
object as they were written (`Node.parts_ofDraft`), and the word of its type among them
(`Node.showsTexts`).
-/

namespace Marshal

open Catalogue

namespace Draft

open Markup

variable {c : Catalogue} {s : PlanSet} {t : Handle} {o : ObjectType} {plan : TypePlan}
  {fields : List (String × Value)} {p : Property} {ps : List (String × Placement × Draft)}
  {pss : List (List (String × Placement × Draft))} {shape : Shape} {d : Draft}

/-! ## Layout -/

/-- What is written of a scalar shape is a scalar or nothing. -/
theorem scalar_of_isScalar (hs : shape.isScalar = true) {n : Bool} {v : Value}
    (hd : ofValue? s shape n v = some d) : d = .null ∨ ∃ t h, d = .scalar t h := by
  cases ofValue?_eq_some_iff.1 hd with
  | null => exact .inl rfl
  | primitive _ hd =>
    obtain ⟨t, ht, rfl, -⟩ := exists_of_ofPrimitive? hd
    exact .inr ⟨t, ht, rfl⟩
  | enumeration => exact .inr ⟨_, _, rfl⟩
  | object | sequence | mapping => cases hs

theorem isFlattened_sequence (layout : Layout) (items : List Draft) (element : Shape) (n : Bool) :
    (Draft.sequence layout items).isFlattened = (Shape.sequence element n layout).isFlattened := by
  cases layout <;> rfl

/-- What is written of a shape that is not flattened is not. -/
theorem not_flattened_of_shape (hs : shape.isFlattened = false) {n : Bool} {v : Value}
    (hd : ofValue? s shape n v = some d) : d.isFlattened = false := by
  cases ofValue?_eq_some_iff.1 hd with
  | null | enumeration | mapping => rfl
  | primitive _ hd =>
    obtain ⟨t, ht, rfl, -⟩ := exists_of_ofPrimitive? hd
    rfl
  | object hd =>
    obtain ⟨parts, rfl⟩ := exists_of_ofObject? hd
    rfl
  | sequence => exact (isFlattened_sequence _ _ _ _).trans hs

theorem not_flattened_of_forms {r : Reference} (hs : c.Forms .standard r shape) {n : Bool} {v : Value}
    (hd : ofValue? s shape n v = some d) : d.isFlattened = false :=
  not_flattened_of_shape hs.not_flattened hd

/-- What is written under a placement of an object. -/
theorem Part.placement (h : Part c .xml s t plan fields p ps) :
    ∀ x ∈ ps, x.2.1 = .attribute ↔ isAttribute .xml p = true := by
  cases h with
  | word plain | value plain =>
    simp [isAttribute, plain]
  | absent | uncaptured => simp
  | captured carrier _ _ _ drafts =>
    intro x hx
    obtain ⟨e, -, -, hxe, -⟩ := Outcome.forall₂_exists_right drafts hx
    simp [isAttribute, carrier, hxe]

/-- **Attributes come first.** -/
theorem Written.exists_split (h : Written c .xml s t fields o plan pss) :
    ∃ as es, pss.flatten = as ++ es ∧ (∀ x ∈ as, x.2.1 = .attribute) ∧
      ∀ x ∈ es, x.2.1 = .element := by
  have H := h.parts
  rw [emissionOrder] at H
  generalize hqs : (c.plannedProperties t).filter (isAttribute .xml) = qs at H
  have hfront := List.forall₂_take qs.length H
  have hback := List.forall₂_drop qs.length H
  rw [List.take_left] at hfront
  rw [List.drop_left] at hback
  refine ⟨(pss.take qs.length).flatten, (pss.drop qs.length).flatten, ?_, fun x hx => ?_,
    fun x hx => ?_⟩
  · rw [← List.flatten_append, List.take_append_drop]
  · obtain ⟨ps, hps, hx⟩ := List.mem_flatten.1 hx
    obtain ⟨q, hq, hpart⟩ := Outcome.forall₂_exists_right hfront hps
    rw [← hqs] at hq
    exact (hpart.placement x hx).2 (List.mem_filter.1 hq).2
  · obtain ⟨ps, hps, hx⟩ := List.mem_flatten.1 hx
    obtain ⟨q, hq, hpart⟩ := Outcome.forall₂_exists_right hback hps
    have hnot : x.2.1 ≠ .attribute := fun ha => by
      simpa [(hpart.placement x hx).1 ha] using (List.mem_filter.1 hq).2
    rcases hpl : x.2.1 with _ | _
    · rfl
    · exact absurd hpl hnot

/-- The names of attributes are names of properties. -/
theorem sublist_attributes {qs : List Property}
    (H : List.Forall₂ (Part c .xml s t plan fields) qs pss) :
    ((pss.flatten.filterMap attributeOf?).map Prod.fst).Sublist
      ((Property.plain qs).map (wireName .xml)) := by
  induction H with
  | nil => exact .refl _
  | @cons q ps qs pss hpart _ ih =>
    rw [List.flatten_cons, List.filterMap_append, List.map_append, Property.plain, List.filter_cons]
    have hname : ∀ {placement d}, ((([(wireName .xml q, placement, d)] :
        List (String × Placement × Draft)).filterMap attributeOf?).map Prod.fst).Sublist
          [wireName .xml q] := by
      intro placement d
      cases ha : attributeOf? (wireName .xml q, placement, d) with
      | none => simp [ha]
      | some a => simp [ha, name_of_attributeOf? ha]
    cases hpart with
    | word plain | value plain =>
      rw [if_pos (by simp [plain]), List.map_cons]
      exact hname.append ih
    | absent plain =>
      rw [if_pos (by simp [plain]), List.map_cons]
      exact .cons _ ih
    | uncaptured carrier =>
      rw [if_neg (by simp [carrier])]
      exact ih
    | captured carrier _ _ _ drafts =>
      rw [if_neg (by simp [carrier])]
      have hnone : ps.filterMap attributeOf? = [] := by
        rw [List.filterMap_eq_nil_iff]
        intro x hx
        obtain ⟨e, -, -, hxe, -⟩ := Outcome.forall₂_exists_right drafts hx
        obtain ⟨name, placement, d⟩ := x
        obtain rfl : placement = .element := hxe
        rfl
      rw [hnone]
      exact ih

theorem Written.nodup_attributes (W : c.WellFormed) (h : Written c .xml s t fields o plan pss) :
    ((pss.flatten.filterMap attributeOf?).map Prod.fst).Nodup := by
  refine List.Nodup.sublist (sublist_attributes h.parts) ?_
  refine (List.Perm.nodup_iff (List.Perm.map _ (List.Perm.filter _ ?_))).2
    (W.nodup_wireName .xml h.type)
  exact List.filter_append_perm _ _

/-- What is written of a value, or of each of its items where it is flattened, can be laid out. -/
structure Lays (d : Draft) : Prop where
  whole : d.isFlattened = false → Laid d
  items : ∀ items, d = .sequence .flattened items → ∀ e ∈ items, Laid e

theorem lays_of_laid (h : Laid d) : Lays d where
  whole _ := h
  items items he := by
    subst he
    cases h.not_flattened

/-- What is known of the drafts of the values in an object. -/
def LaysWithin (c : Catalogue) (s : PlanSet) (fields : List (String × Value)) : Prop :=
  ∀ v, Within fields v → ∀ (l : Layout) (r : Reference) (shape : Shape) (n : Bool) (d : Draft),
    c.Forms l r shape → ofValue? s shape n v = some d → Lays d

/-- What is known of the parts of a property. -/
theorem Part.lays (h : Part c .xml s t plan fields p ps) (H : LaysWithin c s fields) :
    ∀ x ∈ ps, Lays x.2.2 ∧ (x.2.1 = .attribute → x.2.2 = .null ∨ ∃ t h, x.2.2 = .scalar t h) := by
  cases h with
  | word =>
    intro x hx
    obtain rfl := List.mem_singleton.1 hx
    exact ⟨lays_of_laid .scalar, fun _ => .inr ⟨_, _, rfl⟩⟩
  | absent | uncaptured => simp
  | @value shape v d _ _ found forms fault draft =>
    intro x hx
    obtain rfl := List.mem_singleton.1 hx
    refine ⟨H _ (.inl ⟨_, Table.mem_of_find? found⟩) _ _ _ _ _ forms draft, fun ha => ?_⟩
    refine scalar_of_isScalar ?_ draft
    cases hs : shape.isScalar with
    | true => rfl
    | false =>
      have ha : p.placement = .attribute := ha
      simp [layoutFault?, ha, hs] at fault
  | captured _ _ forms found drafts =>
    intro x hx
    obtain ⟨e, he, -, hxe, hd⟩ := Outcome.forall₂_exists_right drafts hx
    refine ⟨H e.2 (.inr ⟨_, e.1, _, Table.mem_of_find? found, ?_⟩) _ _ _ _ _ forms hd, ?_⟩
    · exact (List.mem_filter.1 he).1
    · simp [hxe]

theorem Written.laid (W : c.WellFormed) (h : Written c .xml s t fields o plan pss)
    (H : LaysWithin c s fields) : Laid (.object pss.flatten) := by
  have hall : ∀ x ∈ pss.flatten, Lays x.2.2 ∧
      (x.2.1 = .attribute → x.2.2 = .null ∨ ∃ t h, x.2.2 = .scalar t h) := by
    intro x hx
    obtain ⟨ps, hps, hx⟩ := List.mem_flatten.1 hx
    obtain ⟨q, -, hpart⟩ := Outcome.forall₂_exists_right h.parts hps
    exact hpart.lays H x hx
  refine .object (fun name d hd => (hall _ hd).2 rfl) (h.nodup_attributes W)
    (fun name d hd => (hall _ hd).1.whole) fun name items hd => (hall _ hd).1.items items rfl

/-- **The draft of a planned value can be laid out.** -/
theorem lays_of_ofValue? (P : c.PlannedBy .xml s) {l : Layout} {r : Reference} {n : Bool} {v : Value}
    (hshape : c.Forms l r shape) (hd : ofValue? s shape n v = some d) : Lays d := by
  induction hn : sizeOf v using Nat.strongRecOn generalizing v l r shape n d with
  | ind size ih =>
    subst hn
    cases ofValue?_eq_some_iff.1 hd with
    | null => exact lays_of_laid .null
    | primitive _ hd =>
      obtain ⟨t, ht, rfl, -⟩ := exists_of_ofPrimitive? hd
      exact lays_of_laid .scalar
    | enumeration => exact lays_of_laid .scalar
    | object hd =>
      obtain ⟨o, plan, pss, hw, rfl, -⟩ := written_of_ofObject? P hd
      refine lays_of_laid (hw.laid P.wellFormed fun w hin l r shape n d hshape hd => ?_)
      exact ih _ (Value.sizeOf_lt_of_within hin) hshape hd rfl
    | @sequence _ _ _ _ vs ds hds =>
      cases hshape with
      | sequence hs =>
        have hitems : ∀ e ∈ ds, Laid e := by
          intro e he
          obtain ⟨w, hw, hwe⟩ := Outcome.forall₂_exists_right (ofItems?_eq_some_iff.1 hds) he
          exact (ih _ (Value.sizeOf_lt_of_mem_list hw) hs hwe rfl).whole (not_flattened_of_forms hs hwe)
        constructor
        · intro hf
          cases l with
          | wrapped item => exact .sequence hitems
          | flattened => cases hf
        · intro items he
          obtain ⟨-, rfl⟩ := Draft.sequence.inj he
          exact hitems
    | mapping hds =>
      cases hshape with
      | mapping hs =>
        refine lays_of_laid (.mapping fun k e he => ?_)
        obtain ⟨w, hw, -, hwe⟩ := Outcome.forall₂_exists_right (ofEntries?_eq_some_iff.1 hds) he
        exact (ih _ (Value.sizeOf_lt_of_mem_map hw) hs hwe rfl).whole (not_flattened_of_forms hs hwe)

end Draft

/-! ## Reading the parts -/

namespace Markup

open Draft

variable {name key : String} {placement : Placement} {d : Draft}
  {parts : List (String × Placement × Draft)} {x : String × Placement × Draft}

/-- Names that are read as they are written: no colon cuts them, and no attribute declares a
namespace. -/
def Unprefixed (parts : List (String × Placement × Draft)) : Prop :=
  ∀ x ∈ parts, ':' ∉ x.1.toList ∧ (x.2.1 = .attribute → x.1 ≠ "xmlns")

/-- What is read of a part of an object. -/
def Node.ofPart (x : String × Placement × Draft) : List (String × Placement × Node) :=
  Node.ofAttributes (attributeOf? x).toList ++ Node.ofChildren (elementsAt x)

theorem itemsOf_eq_map (name : String) (items : List Draft) :
    itemsOf name items = (items.filter fun d => !d.isNull).map fun d => (name, ofDraft d) := by
  induction items with
  | nil => rw [itemsOf]; rfl
  | cons d items ih =>
    rw [itemsOf, ih]
    cases h : d.isNull <;> simp [h]

theorem name_of_elementsAt {e : String × Content} (he : e ∈ elementsAt x) : e.1 = x.1 := by
  unfold elementsAt at he
  split at he
  · cases he
  · rw [itemsOf_eq_map] at he
    obtain ⟨d, -, rfl⟩ := List.mem_map.1 he
    rfl
  · split at he
    · cases he
    · rw [List.mem_singleton.1 he]

/-- The attributes of an object are read as they were written. -/
theorem readAttributes_of_unprefixed (h : Unprefixed parts) :
    (ofDraft (.object parts)).readAttributes = parts.filterMap attributeOf? := by
  rw [ofDraft, Content.readAttributes, Content.attributes]
  have hall : ∀ a ∈ parts.filterMap attributeOf?, readAttribute? a = some a := by
    intro a ha
    obtain ⟨x, hx, hxa⟩ := List.mem_filterMap.1 ha
    have hname := name_of_attributeOf? hxa
    obtain ⟨hcolon, hxmlns⟩ := h x hx
    refine readAttribute?_eq_self (hname ▸ hcolon) (hname ▸ hxmlns ?_)
    unfold attributeOf? at hxa
    split at hxa
    · rfl
    · cases hxa
  generalize parts.filterMap attributeOf? = as at hall
  induction as with
  | nil => rfl
  | cons a as ih =>
    obtain ⟨ha, has⟩ := List.forall_mem_cons.1 hall
    rw [List.filterMap_cons_some ha, ih has]

/-- **The parts of an object are read** in the order in which they were written. -/
theorem Node.parts_ofDraft {as es : List (String × Placement × Draft)}
    (ha : ∀ x ∈ as, x.2.1 = .attribute) (he : ∀ x ∈ es, x.2.1 = .element)
    (h : Unprefixed (as ++ es)) :
    Tree.parts (Node.element name (ofDraft (.object (as ++ es)))) =
      .ok ((as ++ es).flatMap Node.ofPart) := by
  have hnone : ∀ x ∈ es, attributeOf? x = none := by
    rintro ⟨n, pl, d⟩ hx
    obtain rfl : pl = .element := he _ hx
    rfl
  have hnil : ∀ x ∈ as, elementsAt x = [] := by
    rintro ⟨n, pl, d⟩ hx
    obtain rfl : pl = .attribute := ha _ hx
    rfl
  have hfront : as.flatMap Node.ofPart = Node.ofAttributes (as.filterMap attributeOf?) := by
    have hpart : ∀ x ∈ as, Node.ofPart x = Node.ofAttributes (attributeOf? x).toList := by
      intro x hx
      rw [Node.ofPart, hnil x hx]
      exact List.append_nil _
    rw [List.flatMap_congr hpart, Node.ofAttributes, List.filterMap_eq_flatMap_toList, List.map_flatMap]
    rfl
  have hback : es.flatMap Node.ofPart = Node.ofChildren (es.flatMap elementsAt) := by
    have hpart : ∀ x ∈ es, Node.ofPart x = Node.ofChildren (elementsAt x) := by
      intro x hx
      rw [Node.ofPart, hnone x hx]
      rfl
    rw [List.flatMap_congr hpart, Node.ofChildren, List.map_flatMap]
    rfl
  show Except.ok (Node.ofAttributes (ofDraft (.object (as ++ es))).readAttributes ++
    Node.ofChildren (ofDraft (.object (as ++ es))).children) = _
  rw [readAttributes_of_unprefixed h, ofDraft, Content.children, elementsOf_eq_flatMap,
    List.filterMap_append, List.flatMap_append, List.flatMap_append, hfront, hback,
    List.filterMap_eq_nil_iff.2 hnone, List.flatMap_eq_nil_iff.2 hnil, List.append_nil,
    List.nil_append]

/-- Elements of other names are passed in the search for a text. -/
theorem firstText_append {es fs : List (String × Content)}
    (h : ∀ e ∈ es, localName e.1 ≠ key) :
    Content.firstText key (es ++ fs) = Content.firstText key fs := by
  induction es with
  | nil => rfl
  | cons e es ih =>
    obtain ⟨he, hes⟩ := List.forall_mem_cons.1 h
    rw [List.cons_append, Content.firstText, if_neg he, ih hes]

/-- **A text that stands alone under its name** is found ahead. -/
theorem Node.showsTexts (h : Unprefixed parts) :
    Tree.ShowsTexts (Node.element name (ofDraft (.object parts))) parts := by
  intro key placement w hone
  have hread := readAttributes_of_unprefixed h
  rcases placement with _ | _
  · show Content.firstText key (ofDraft (.object parts)).children = _
    rw [ofDraft, Content.children, elementsOf_eq_flatMap]
    clear hread
    induction parts with
    | nil => cases hone
    | cons x parts ih =>
      obtain ⟨hx, hparts⟩ := List.forall_mem_cons.1 h
      rw [List.flatMap_cons]
      by_cases hk : x.1 = key
      · rw [List.filter_cons_of_pos (by simpa using hk)] at hone
        obtain ⟨rfl, -⟩ := List.cons.inj hone
        have hlocal : localName key = key := localName_eq_self hx.1
        have hat : elementsAt (key, .element, text w) = [(key, .text w)] := rfl
        rw [hat, List.singleton_append, Content.firstText, if_pos hlocal]
        rfl
      · rw [List.filter_cons_of_neg (by simpa using hk)] at hone
        rw [firstText_append, ih hparts hone]
        intro e he
        rwa [name_of_elementsAt he, localName_eq_self hx.1]
  · show Except.ok (((ofDraft (.object parts)).readAttributes.find? fun a => a.1 = key).map Prod.snd) = _
    rw [hread]
    clear hread
    induction parts with
    | nil => cases hone
    | cons x parts ih =>
      by_cases hk : x.1 = key
      · rw [List.filter_cons_of_pos (by simpa using hk)] at hone
        obtain ⟨rfl, -⟩ := List.cons.inj hone
        simp [Draft.text, attributeOf?, Token.spelling]
      · rw [List.filter_cons_of_neg (by simpa using hk)] at hone
        have hrest := ih (fun x hx => h x (List.mem_cons_of_mem _ hx)) hone
        cases ha : attributeOf? x with
        | none => rw [List.filterMap_cons_none ha, hrest]
        | some a =>
          have hne : decide (a.1 = key) = false := by
            rw [name_of_attributeOf? ha]
            simpa using hk
          rw [List.filterMap_cons_some ha, List.find?_cons, hne]
          exact hrest

/-- A part that stands alone under its name is read as the one part under it. -/
theorem Node.under_ofPart (h : Unprefixed parts)
    (hone : parts.filter (fun x => x.1 = key) = [(key, .element, d)]) (hf : d.isFlattened = false)
    (hn : d.isNull = false) :
    Tree.under key .element (parts.flatMap Node.ofPart) =
      [(key, .element, .element key (ofDraft d))] := by
  have hname : ∀ x ∈ parts, ∀ y ∈ Node.ofPart x, y.1 = x.1 := by
    intro x hx y hy
    rcases List.mem_append.1 hy with hy | hy
    · obtain ⟨a, ha, rfl⟩ := List.mem_map.1 hy
      exact name_of_attributeOf? (Option.mem_toList.1 ha)
    · obtain ⟨e, he, rfl⟩ := List.mem_map.1 hy
      show localName e.1 = x.1
      rw [name_of_elementsAt he, localName_eq_self (h x hx).1]
  induction parts with
  | nil => cases hone
  | cons x parts ih =>
    obtain ⟨hx, hparts⟩ := List.forall_mem_cons.1 h
    rw [List.flatMap_cons, Tree.under, List.filter_append]
    obtain ⟨hnx, hnames⟩ := List.forall_mem_cons.1 hname
    have hothers : ∀ qs : List (String × Placement × Draft), (∀ x ∈ qs, x.1 ≠ key) →
        (∀ x ∈ qs, ∀ y ∈ Node.ofPart x, y.1 = x.1) →
          (qs.flatMap Node.ofPart).filter (fun x => x.1 = key ∧ x.2.1 = .element) = [] := by
      intro qs hqs hnames
      rw [List.filter_eq_nil_iff]
      intro y hy
      obtain ⟨x, hx, hy⟩ := List.mem_flatMap.1 hy
      simp [hnames x hx y hy, hqs x hx]
    by_cases hk : x.1 = key
    · rw [List.filter_cons_of_pos (by simpa using hk)] at hone
      obtain ⟨rfl, hrest⟩ := List.cons.inj hone
      rw [hothers parts (fun x hx => by simpa using List.filter_eq_nil_iff.1 hrest x hx) hnames,
        List.append_nil, Node.ofPart, elementsAt_of_not_flattened hf, hn, if_neg Bool.false_ne_true]
      simp [Node.ofAttributes, Node.ofChildren, attributeOf?, localName_eq_self hx.1]
    · rw [List.filter_cons_of_neg (by simpa using hk)] at hone
      have hnone := hothers [x] (by simpa using hk) (by simpa using hnx)
      rw [List.flatMap_singleton] at hnone
      rw [hnone, List.nil_append]
      exact ih hparts hone hnames

end Markup

/-! ## Names without prefixes -/

open Catalogue

variable {c : Catalogue} {s : PlanSet} {t : Handle} {o : ObjectType} {plan : TypePlan}
  {fields : List (String × Value)} {pss : List (List (String × Placement × Draft))}

/-- **The names under which an object is written** in markup hold no colon, which would cut them, and
no attribute is read as the declaration of a namespace. -/
structure Catalogue.Unprefixed (c : Catalogue) (t : Handle) (fields : List (String × Value)) :
    Prop where
  names : ∀ p ∈ c.plannedProperties t, p.carrier = false →
    (c.Distinguishes t p ∨ ∃ v, Table.find? fields p.name = some v) →
      ':' ∉ (wireName .xml p).toList
  attributes : ∀ p ∈ c.plannedProperties t, p.carrier = false →
    (c.Distinguishes t p ∨ ∃ v, Table.find? fields p.name = some v) →
      placementIn .xml p = .attribute → wireName .xml p ≠ "xmlns"
  keys : ∀ p ∈ c.plannedProperties t, p.carrier = true → ∀ es,
    Table.find? fields p.name = some (.map es) → ∀ k v, (k, v) ∈ es → ':' ∉ k.toList

theorem Draft.Written.unprefixed (h : Written c .xml s t fields o plan pss)
    (hn : c.Unprefixed t fields) : Markup.Unprefixed pss.flatten := by
  intro x hx
  obtain ⟨ps, hps, hx⟩ := List.mem_flatten.1 hx
  obtain ⟨p, hp, hpart⟩ := Outcome.forall₂_exists_right h.parts hps
  have hp := mem_emissionOrder.1 hp
  cases hpart with
  | word plain distinguishes =>
    obtain rfl := List.mem_singleton.1 hx
    exact ⟨hn.names p hp plain (.inl distinguishes), hn.attributes p hp plain (.inl distinguishes)⟩
  | value plain _ found =>
    obtain rfl := List.mem_singleton.1 hx
    exact ⟨hn.names p hp plain (.inr ⟨_, found⟩), hn.attributes p hp plain (.inr ⟨_, found⟩)⟩
  | absent | uncaptured => cases hx
  | captured carrier _ _ found drafts =>
    obtain ⟨e, he, hxe, hpl, -⟩ := Outcome.forall₂_exists_right drafts hx
    rw [hxe, hpl]
    exact ⟨hn.keys p hp carrier _ found e.1 e.2 (List.mem_filter.1 he).1, fun h => by cases h⟩

theorem Draft.Written.parts_ofDraft (h : Written c .xml s t fields o plan pss)
    (hn : c.Unprefixed t fields) (name : String) :
    Tree.parts (Markup.Node.element name (Markup.ofDraft (.object pss.flatten))) =
      .ok (pss.flatten.flatMap Markup.Node.ofPart) := by
  have hun := h.unprefixed hn
  obtain ⟨as, es, hsplit, has, hes⟩ := h.exists_split
  rw [hsplit] at hun ⊢
  exact Markup.Node.parts_ofDraft has hes hun

/-- **A document without prefixes is read** as the tree of the draft that was written. -/
theorem Document.exists_written_of_write_xml (P : c.PlannedBy .xml s) {i : Instance} {doc : String}
    (h : write .xml s i = .ok doc) (hn : c.Unprefixed i.type i.fields) :
    ∃ o plan pss, Draft.Written c .xml s i.type i.fields o plan pss ∧
      ∀ declared, read .xml s declared (Text.toBytes doc) =
        Tree.root s declared
          (Markup.Node.element plan.write.rootName (Markup.ofDraft (.object pss.flatten))) := by
  obtain ⟨d, rplan, hd, hplan, hlaid⟩ := write_xml_eq_document P.format h
  obtain ⟨o, plan, pss, hw, rfl, -⟩ := Draft.written_of_ofObject? P hd
  obtain rfl := Option.some.inj (hplan.symm.trans hw.planned)
  obtain ⟨hroot, hleg, rfl⟩ := hlaid
    (hw.laid P.wellFormed fun v _ l r shape n d hs hd => Draft.lays_of_ofValue? P hs hd)
  refine ⟨o, rplan, pss, hw, fun declared => ?_⟩
  rw [read, if_pos P.format]
  refine Markup.Reader.decode_document hroot hleg fun _ hx => ?_
  -- an attribute that declares a namespace would not be read as one
  obtain ⟨a, ha, hxmlns⟩ := List.mem_map.1 hx
  rw [Markup.ofDraft, Markup.Content.attributes] at ha
  obtain ⟨x, hmem, hxa⟩ := List.mem_filterMap.1 ha
  have hattribute : x.2.1 = .attribute := by
    unfold Markup.attributeOf? at hxa
    split at hxa
    · rfl
    · cases hxa
  exact (hw.unprefixed hn x hmem).2 hattribute ((Markup.name_of_attributeOf? hxa).symm.trans hxmlns)

end Marshal
