import Marshal.Proofs.Markup.Walk
import Marshal.Proofs.Wire.Order

/-!
# The order of elements

Elements with different local names may change places where they stand in an element that is decoded as
an object: `Rearranged` says so for a shape, along the plans that decide what is decoded as what. There
is a lemma for each of its rules, and an element that is rearranged is read as the same value, or neither
is read (`readAlike_of_rearranged`).
-/

namespace Marshal.Markup

open Decode Outcome Text

/-- The name of an element without its prefix, as it stands in the tag. -/
def Element.localName (e : Element) : Piece := localPart (tagName e.tag)

/-- The name that an item goes by. Events go by none. -/
def Item.name? : Item Element → Option Piece
  | .event _ => none
  | .element e => some e.localName

/-- **Elements that differ only in the order of elements** with different local names, in this element
or in others that are decoded as objects when this one is decoded along a shape. -/
inductive Rearranged (s : PlanSet) : Shape → Element → Element → Prop where
  | trans {shape : Shape} {a b c : Element} :
    Rearranged s shape a b → Rearranged s shape b c → Rearranged s shape a c
  /-- In an object, the elements of one name and the events between the elements keep their order. -/
  | children {h : Handle} {tag : Piece} {isEmpty : Bool} {items items' : List (Item Element)} :
    SameOrder Item.name? items items' →
    Rearranged s (.object h) ⟨tag, isEmpty, items⟩ ⟨tag, isEmpty, items'⟩
  /-- A part of an object is decoded as the plan of its concrete type says. -/
  | part {h : Handle} {tag : Piece} {isEmpty : Bool} {before after : List (Item Element)}
    {a b : Element} {c p : Child} {dplan plan : TypePlan} {shape : Shape} :
    (Element.mk tag isEmpty (before ++ .element a :: after)).open = .ok c →
    s.type? h = some dplan → Tree.concretePlan s dplan (Found.child c) = .ok plan →
    a.open = .ok p → Tree.partShape plan p.head.name .element = some shape → Rearranged s shape a b →
    Rearranged s (.object h) ⟨tag, isEmpty, before ++ .element a :: after⟩
      ⟨tag, isEmpty, before ++ .element b :: after⟩
  /-- The items of a sequence in an element of its own stand in that element. -/
  | item {shape : Shape} {n : Bool} {name : String} {tag : Piece} {isEmpty : Bool}
    {before after : List (Item Element)} {a b : Element} : Rearranged s shape a b →
    Rearranged s (.sequence shape n (.wrapped name)) ⟨tag, isEmpty, before ++ .element a :: after⟩
      ⟨tag, isEmpty, before ++ .element b :: after⟩
  /-- The element of a flattened sequence is its item. -/
  | flattened {shape : Shape} {n : Bool} {a b : Element} :
    Rearranged s shape a b → Rearranged s (.sequence shape n .flattened) a b
  /-- The values of a mapping stand in its entries. -/
  | value {shape : Shape} {n : Bool} {tag tag' : Piece} {isEmpty isEmpty' : Bool}
    {before after before' after' : List (Item Element)} {a b : Element} :
    a.localName = Symbol.ofText "value" → Rearranged s shape a b →
    Rearranged s (.mapping shape n)
      ⟨tag, isEmpty, before ++ .element ⟨tag', isEmpty', before' ++ .element a :: after'⟩ :: after⟩
      ⟨tag, isEmpty, before ++ .element ⟨tag', isEmpty', before' ++ .element b :: after'⟩ :: after⟩

variable {c : Catalogue} {f : Format} {s : PlanSet} {shape : Shape} {a b : Element} {p q : Child}
  {items items' : List (Item Element)}

/-! ## The tags of elements -/

theorem Rearranged.tag_eq (h : Rearranged s shape a b) : a.tag = b.tag ∧ a.isEmpty = b.isEmpty := by
  induction h with
  | trans _ _ ih₁ ih₂ => exact ⟨ih₁.1.trans ih₂.1, ih₁.2.trans ih₂.2⟩
  | flattened _ ih => exact ih
  | _ => exact ⟨rfl, rfl⟩

/-- Elements with one tag are handed out with one head. -/
theorem open_of_tag_eq (h : a.tag = b.tag ∧ a.isEmpty = b.isEmpty) :
    (∃ e, a.open = .error e ∧ b.open = .error e) ∨
      ∃ head, a.open = .ok ⟨head, a.items⟩ ∧ b.open = .ok ⟨head, b.items⟩ := by
  rw [Element.open, Element.open, h.1, h.2]
  rcases Head.ofTag b.tag b.isEmpty with e | head
  · exact .inl ⟨e, rfl, rfl⟩
  · exact .inr ⟨head, rfl, rfl⟩

/-- An element is read under its local name. -/
theorem localName_eq_of_open (h : a.open = .ok p) : a.localName = Symbol.ofText p.head.name := by
  obtain ⟨hhead, -⟩ := Element.open_eq_ok_iff.1 h
  obtain ⟨name, hname, hhead⟩ := bind_eq_ok_iff.1 hhead
  obtain ⟨attributes, -, hhead⟩ := bind_eq_ok_iff.1 hhead
  rw [← pure_eq_ok_iff.1 hhead]
  rw [textOf] at hname
  split at hname
  · rename_i htext
    cases hname
    exact Symbol.text?_eq_some_iff.1 htext
  · cases hname

/-! ## Texts -/

/-- There is no text where an element stands. -/
theorem text_of_mem {e : Element} (h : Item.element e ∈ items) (before : String) :
    (Item.text before items).toOption = none := by
  induction items generalizing before with
  | nil => cases h
  | cons i items ih =>
    cases i with
    | element e => rfl
    | event e =>
      have hmem := (List.mem_cons.1 h).resolve_left (by simp)
      rw [Item.text, toOption_bind]
      rcases Lexer.textOfEvent e with _ | more
      · rfl
      · exact ih hmem _

/-- Items without an element are events, which keep their order. -/
theorem eq_of_sameOrder (h : SameOrder Item.name? items items')
    (hnone : ∀ e, Item.element e ∉ items) : items = items' := by
  have hevents : ∀ l : List (Item Element), (∀ e, Item.element e ∉ l) →
      l.filter (fun i => i.name? = none) = l := by
    intro l hl
    refine List.filter_eq_self.2 fun i hi => ?_
    cases i with
    | event e => rfl
    | element e => exact absurd hi (hl e)
  rw [← hevents items hnone, h none, hevents items' fun e he => hnone e (h.mem_iff.2 he)]

theorem text_of_sameOrder (h : SameOrder Item.name? items items') (before : String) :
    (Item.text before items).toOption = (Item.text before items').toOption := by
  by_cases hsome : ∃ e, Item.element e ∈ items
  · obtain ⟨e, he⟩ := hsome
    rw [text_of_mem he, text_of_mem (h.mem_iff.1 he)]
  · rw [eq_of_sameOrder h (not_exists.1 hsome)]

/-- **The text of a rearranged element** is the same, if it has one. -/
theorem Rearranged.text_eq (h : Rearranged s shape a b) (before : String) :
    (Item.text before a.items).toOption = (Item.text before b.items).toOption := by
  induction h with
  | trans _ _ ih₁ ih₂ => exact ih₁.trans ih₂
  | children h => exact text_of_sameOrder h before
  | flattened _ ih => exact ih
  | part | item | value =>
    rw [text_of_mem (List.mem_append_right _ List.mem_cons_self),
      text_of_mem (List.mem_append_right _ List.mem_cons_self)]

/-! ## Children -/

/-- The child that an item is handed out as. -/
def Item.child? : Item Element → Option Child
  | .event _ => none
  | .element e => e.open.toOption

theorem childrenEnd_eq_ok_iff :
    Item.childrenEnd items = .ok () ↔ ∀ e, Item.element e ∈ items → ∃ p, e.open = .ok p := by
  induction items with
  | nil => simp [Item.childrenEnd]
  | cons i items ih =>
    cases i with
    | event e => simp [Item.childrenEnd, ih]
    | element e => simp [Item.childrenEnd, bind_eq_ok_iff, ih]

/-- The children are the elements, if no tag among them is broken. -/
theorem children_eq_filterMap (h : Item.childrenEnd items = .ok ()) :
    Item.children items = items.filterMap Item.child? := by
  induction items with
  | nil => rfl
  | cons i items ih =>
    cases i with
    | event e => exact ih h
    | element e =>
      obtain ⟨p, hp, h⟩ := bind_eq_ok_iff.1 h
      have hchild : Item.child? (.element e) = some p := by rw [Item.child?, hp, toOption_ok]
      rw [Item.children, hp, List.filterMap_cons_some hchild, ih h]

/-- A child of a name is an element of that name. -/
theorem filter_child? (i : Item Element) (name : String) :
    i.child?.filter (fun p => p.head.name = name) =
      if i.name? = some (Symbol.ofText name) then i.child? else none := by
  cases i with
  | event e => simp [Item.child?]
  | element e =>
    rw [Item.child?, Item.name?]
    rcases he : e.open with _ | p
    · simp [toOption_error]
    · rw [toOption_ok, localName_eq_of_open he]
      by_cases hn : p.head.name = name
      · simp [hn]
      · simp [hn, ofText_injective.ne hn]

theorem children_sameOrder (h : SameOrder Item.name? items items')
    (hend : Item.childrenEnd items = .ok ()) :
    Item.childrenEnd items' = .ok () ∧
      SameOrder (fun p : Child => p.head.name) (Item.children items) (Item.children items') := by
  have hend' : Item.childrenEnd items' = .ok () :=
    childrenEnd_eq_ok_iff.2 fun e he => childrenEnd_eq_ok_iff.1 hend e (h.mem_iff.2 he)
  have hfilter : ∀ (l : List (Item Element)) (name : String),
      (l.filterMap Item.child?).filter (fun p => p.head.name = name) =
        (l.filter fun i => i.name? = some (Symbol.ofText name)).filterMap Item.child? := by
    intro l name
    simp only [List.filter_filterMap, List.filterMap_filter, filter_child?, decide_eq_true_eq]
  refine ⟨hend', fun name => ?_⟩
  rw [children_eq_filterMap hend, children_eq_filterMap hend', hfilter, hfilter, h]

/-- A text is found among the elements of its name alone. -/
theorem firstText_filter (name : String) (ps : List Child) :
    Child.firstText name (ps.filter fun p => p.head.name = name) (.ok ()) =
      Child.firstText name ps (.ok ()) := by
  induction ps with
  | nil => rfl
  | cons p ps ih =>
    by_cases hp : p.head.name = name
    · rw [List.filter_cons_of_pos (by simpa using hp), Child.firstText, Child.firstText, if_pos hp,
        if_pos hp]
    · rw [List.filter_cons_of_neg (by simpa using hp), ih, Child.firstText, if_neg hp]

/-- Where one element is replaced by another with its tag, so is the child. -/
def Replaces (a b : Element) (x y : Child) : Prop := x = y ∨ a.open = .ok x ∧ b.open = .ok y

theorem children_replace (htag : a.tag = b.tag ∧ a.isEmpty = b.isEmpty)
    (before after : List (Item Element)) :
    Item.childrenEnd (before ++ .element a :: after) =
        Item.childrenEnd (before ++ .element b :: after) ∧
      List.Forall₂ (Replaces a b) (Item.children (before ++ .element a :: after))
        (Item.children (before ++ .element b :: after)) := by
  have hrefl : ∀ ps : List Child, List.Forall₂ (Replaces a b) ps ps := fun ps =>
    List.forall₂_same.2 fun p _ => .inl rfl
  induction before with
  | nil =>
    simp only [List.nil_append, Item.childrenEnd, Item.children]
    rcases open_of_tag_eq htag with ⟨e, ha, hb⟩ | ⟨head, ha, hb⟩
    · rw [ha, hb]
      exact ⟨rfl, .nil⟩
    · rw [ha, hb]
      exact ⟨rfl, .cons (.inr ⟨ha, hb⟩) (hrefl _)⟩
  | cons i before ih =>
    cases i with
    | event e => exact ih
    | element e =>
      simp only [List.cons_append, Item.childrenEnd, Item.children]
      rcases e.open with _ | p
      · exact ⟨rfl, .nil⟩
      · exact ⟨ih.1, .cons (.inl rfl) ih.2⟩

theorem Replaces.head_eq {x y : Child} (h : Replaces a b x y)
    (htag : a.tag = b.tag ∧ a.isEmpty = b.isEmpty) : x.head = y.head := by
  rcases h with rfl | ⟨hx, hy⟩
  · rfl
  · rcases open_of_tag_eq htag with ⟨e, ha, -⟩ | ⟨head, ha, hb⟩
    · rw [ha] at hx
      cases hx
    · rw [ha] at hx
      rw [hb] at hy
      cases hx
      cases hy
      rfl

/-! ## Objects -/

section Objects

variable {g : Tree.Inner Found} {h : Handle} {head : Head}

/-- An object with a broken tag among its elements is not read. -/
theorem object_of_broken {e : DecodeError} (hend : p.childrenEnd = .error e) :
    (Tree.object s g h (.child p)).toOption = none := by
  refine Option.eq_none_iff_forall_ne_some.2 fun i hi => ?_
  obtain ⟨_, _, _, _, -, -, -, -, hok, -⟩ := Tree.object_eq_ok_iff.1 (toOption_eq_some_iff.1 hi)
  have hok : p.childrenEnd = .ok () := hok
  rw [hend] at hok
  cases hok

theorem sameOrder_parts {ps qs : List Child}
    (h : SameOrder (fun p : Child => p.head.name) ps qs) (as : List (String × String)) :
    SameOrder Prod.fst (Found.ofAttributes as ++ Found.ofChildren ps)
      (Found.ofAttributes as ++ Found.ofChildren qs) := by
  intro name
  have hchildren : SameOrder Prod.fst (Found.ofChildren ps) (Found.ofChildren qs) :=
    h.map fun _ => rfl
  rw [List.filter_append, List.filter_append, hchildren]

/-- **An object whose elements stand in another order** is read as the same object. -/
theorem object_of_sameOrder (P : c.PlannedBy f s) (hitems : SameOrder Item.name? items items') :
    (Tree.object s g h (.child ⟨head, items⟩)).toOption =
      (Tree.object s g h (.child ⟨head, items'⟩)).toOption := by
  rcases hend : Item.childrenEnd items with e | ⟨⟩
  · rcases hend' : Item.childrenEnd items' with e' | ⟨⟩
    · rw [object_of_broken (p := ⟨head, items⟩) hend, object_of_broken (p := ⟨head, items'⟩) hend']
    · rw [(children_sameOrder hitems.symm hend').1] at hend
      cases hend
  · obtain ⟨hend', hchildren⟩ := children_sameOrder hitems hend
    refine Tree.object_congr P rfl rfl (fun name placement => ?_) ?_ fun dplan plan _ _ hsep => ?_
    · rcases placement with _ | _
      · show (Child.firstText name (Item.children items) (Item.childrenEnd items)).toOption =
          (Child.firstText name (Item.children items') (Item.childrenEnd items')).toOption
        rw [hend, hend', ← firstText_filter, hchildren, firstText_filter]
      · rfl
    · show (Item.childrenEnd items).toOption = (Item.childrenEnd items').toOption
      rw [hend, hend']
    · exact Tree.fields_of_sameOrder hsep (sameOrder_parts hchildren head.attributes) _

/-- The text under a name is the same if the texts of the elements are. -/
theorem firstText_congr {ps qs : List Child} {x : Except DecodeError Unit}
    (h : List.Forall₂ (fun p q => p.head = q.head ∧ p.text.toOption = q.text.toOption) ps qs)
    (name : String) :
    (Child.firstText name ps x).toOption = (Child.firstText name qs x).toOption := by
  induction h with
  | nil => rfl
  | @cons p q ps qs hpq _ ih =>
    rw [Child.firstText, Child.firstText, hpq.1]
    split
    · have htext := hpq.2
      rcases hp : p.text with e | t <;> rcases hq : q.text with e' | t' <;> rw [hp, hq] at htext
      · rfl
      · cases htext
      · cases htext
      · cases htext
        rfl
    · exact ih

/-- An object is the same if its elements are read as the same values, along its concrete plan. -/
theorem object_of_children (P : c.PlannedBy f s) (hhead : p.head = q.head)
    (hend : p.childrenEnd = q.childrenEnd)
    (htext : List.Forall₂ (fun x y => x.head = y.head ∧ x.text.toOption = y.text.toOption)
      p.children q.children)
    (hvalue : ∀ dplan plan, s.type? h = some dplan →
      Tree.concretePlan s dplan (Found.child p) = .ok plan → List.Forall₂ (fun x y => x.head = y.head ∧ ∀ shape allowed,
        Tree.partShape plan x.head.name .element = some shape →
          (g shape allowed x.head.name (.child x)).toOption =
            (g shape allowed x.head.name (.child y)).toOption) p.children q.children) :
    (Tree.object s g h (.child p)).toOption = (Tree.object s g h (.child q)).toOption := by
  refine Tree.object_congr P rfl rfl (fun name placement => ?_) ?_ fun dplan plan hd hconcrete _ => ?_
  · rcases placement with _ | _
    · show (Child.firstText name p.children p.childrenEnd).toOption =
        (Child.firstText name q.children q.childrenEnd).toOption
      rw [hend]
      exact firstText_congr htext name
    · show (Except.ok _).toOption = (Except.ok _).toOption
      rw [hhead]
  · exact congrArg Except.toOption hend
  · rw [hhead]
    refine toOption_foldlM_congr (R := fun x y => ∀ scan,
      (Tree.field g plan scan x).toOption = (Tree.field g plan scan y).toOption)
      (List.rel_append (List.forall₂_same.2 fun _ _ _ => rfl) ?_) (fun scan _ _ hxy => hxy scan) _
    rw [Found.ofChildren, Found.ofChildren, List.forall₂_map_left_iff, List.forall₂_map_right_iff]
    refine (hvalue dplan plan hd hconcrete).imp fun x y hxy scan => ?_
    rw [← hxy.1]
    exact Tree.field_congr hxy.2 scan

end Objects

/-! ## Entries -/

section Entries

variable {g : String → Found → Except DecodeError Value} {ps qs : List Child}
  {x : Except DecodeError Unit}

theorem ofEntries_congr
    (h : List.Forall₂ (fun p q => ∀ table, ((Found.ofEntry p).foldlM (Tree.entry g) table).toOption =
      ((Found.ofEntry q).foldlM (Tree.entry g) table).toOption) ps qs) (table : List (String × Value)) :
    ((Found.ofEntries ps x).foldlM (Tree.entry g) table).toOption =
      ((Found.ofEntries qs x).foldlM (Tree.entry g) table).toOption := by
  induction h generalizing table with
  | nil => rfl
  | @cons p q ps qs hpq _ ih =>
    simp only [Found.ofEntries] at ih
    simp only [Found.ofEntries, List.flatMap_cons, List.append_assoc, List.foldlM_append, toOption_bind,
      hpq]
    simp only [List.foldlM_append, toOption_bind] at ih
    exact bind_congr fun table => ih table

/-- What is found as the value of an entry is replaced with it. -/
theorem entryOf_replaced (htag : a.tag = b.tag ∧ a.isEmpty = b.isEmpty)
    (hname : a.localName = Symbol.ofText "value") (h : List.Forall₂ (Replaces a b) ps qs)
    (key : Option String) :
    Alike (fun u v => u.1 = v.1 ∧ Option.Rel (Replaces a b) u.2 v.2) (Child.entryOf key ps x)
      (Child.entryOf key qs x) := by
  have hrefl : ∀ y : Except DecodeError (String × Option Child),
      Alike (fun u v => u.1 = v.1 ∧ Option.Rel (Replaces a b) u.2 v.2) y y := by
    rintro (e | ⟨k, _ | p⟩)
    · exact .error e
    · exact .ok ⟨rfl, .none⟩
    · exact .ok ⟨rfl, .some (.inl rfl)⟩
  induction h generalizing key with
  | nil => exact hrefl _
  | @cons p q ps qs hpq _ ih =>
    rw [Child.entryOf, Child.entryOf, ← hpq.head_eq htag]
    by_cases hv : p.head.name = "value"
    · have hk : p.head.name ≠ "key" := by simp [hv]
      rw [if_neg hk, if_neg hk, if_pos hv, if_pos hv]
      cases key with
      | none => exact .error _
      | some k => exact .ok ⟨rfl, .some hpq⟩
    · obtain rfl : p = q := by
        refine hpq.resolve_right fun hopen => hv ?_
        exact ofText_injective ((localName_eq_of_open hopen.1).symm.trans hname)
      rw [if_neg hv, if_neg hv]
      split
      · rcases p.text with e | k
        · exact .error e
        · exact ih (some k)
      · exact ih key

/-- An entry is the same if its value is read as the same value. -/
theorem ofEntry_replaced {u v : Child} (hhead : u.head = v.head) (hend : u.childrenEnd = v.childrenEnd)
    (htag : a.tag = b.tag ∧ a.isEmpty = b.isEmpty) (hname : a.localName = Symbol.ofText "value")
    (h : List.Forall₂ (Replaces a b) u.children v.children)
    (hvalue : ∀ p q, a.open = .ok p → b.open = .ok q → ∀ key,
      (g key (.child p)).toOption = (g key (.child q)).toOption) (table : List (String × Value)) :
    ((Found.ofEntry u).foldlM (Tree.entry g) table).toOption =
      ((Found.ofEntry v).foldlM (Tree.entry g) table).toOption := by
  have hentry := entryOf_replaced (x := v.childrenEnd) htag hname h none
  rw [Found.ofEntry, Found.ofEntry, hhead, hend]
  split
  · rfl
  · generalize Child.entryOf none u.children v.childrenEnd = y at hentry
    generalize Child.entryOf none v.children v.childrenEnd = z at hentry
    cases hentry with
    | error => rfl
    | @ok y z hyz =>
      obtain ⟨k, y⟩ := y
      obtain ⟨k', z⟩ := z
      obtain ⟨rfl, hyz⟩ : k = k' ∧ Option.Rel (Replaces a b) y z := hyz
      rcases hyz with hyz | _
      · rcases hyz with rfl | ⟨hp, hq⟩
        · rfl
        · simp only [List.foldlM_cons, toOption_bind, Tree.entry_congr (hvalue _ _ hp hq k)]
      · rfl

end Entries

/-! ## Values -/

/-- The element that replaces another is handed out with its tag and its own items. -/
theorem Replaces.cases {x y : Child} (h : Replaces a b x y)
    (htag : a.tag = b.tag ∧ a.isEmpty = b.isEmpty) :
    x = y ∨ x.head = y.head ∧ x.items = a.items ∧ y.items = b.items ∧ a.open = .ok x ∧
      b.open = .ok y :=
  h.imp_right fun hopen => ⟨h.head_eq htag, (Element.open_eq_ok_iff.1 hopen.1).2,
    (Element.open_eq_ok_iff.1 hopen.2).2, hopen⟩

/-- Elements that are read as the same values along a shape, where neither has a broken tag. -/
def ReadAlike (s : PlanSet) (shape : Shape) (a b : Element) : Prop :=
  ∀ p q, a.open = .ok p → b.open = .ok q → ∀ room allowed name,
    (Tree.value s room shape allowed name (Found.child p)).toOption =
      (Tree.value s room shape allowed name (Found.child q)).toOption

section ReadAlike

variable {tag : Piece} {isEmpty : Bool} {before after : List (Item Element)}

theorem ReadAlike.trans {e : Element} (htag : a.tag = b.tag ∧ a.isEmpty = b.isEmpty)
    (h : ReadAlike s shape a b) (h' : ReadAlike s shape b e) : ReadAlike s shape a e := by
  intro p q hp hq room allowed name
  rcases open_of_tag_eq htag with ⟨_, ha, -⟩ | ⟨head, -, hb⟩
  · rw [ha] at hp
    cases hp
  · exact (h p _ hp hb room allowed name).trans (h' _ q hb hq room allowed name)

/-- Elements in another order are read alike in an object. -/
theorem readAlike_of_sameOrder (P : c.PlannedBy f s) {h : Handle}
    (hitems : SameOrder Item.name? items items') :
    ReadAlike s (.object h) ⟨tag, isEmpty, items⟩ ⟨tag, isEmpty, items'⟩ := by
  intro p q hp hq room allowed name
  rcases open_of_tag_eq (a := ⟨tag, isEmpty, items⟩) (b := ⟨tag, isEmpty, items'⟩) ⟨rfl, rfl⟩ with
    ⟨e, ha, -⟩ | ⟨head, ha, hb⟩
  · rw [ha] at hp
    cases hp
  · obtain rfl := Except.ok.inj (ha.symm.trans hp)
    obtain rfl := Except.ok.inj (hb.symm.trans hq)
    exact Tree.value_object_congr rfl rfl (fun room => object_of_sameOrder P hitems) room allowed name

/-- Objects are read alike if a part is, along the shape that it has by the plan of the object. -/
theorem ReadAlike.part (P : c.PlannedBy f s) {h : Handle} {r x : Child} {dplan plan : TypePlan}
    (hr : (Element.mk tag isEmpty (before ++ .element a :: after)).open = .ok r)
    (hd : s.type? h = some dplan) (hconcrete : Tree.concretePlan s dplan (Found.child r) = .ok plan)
    (hx : a.open = .ok x) (hshape : Tree.partShape plan x.head.name .element = some shape)
    (htag : a.tag = b.tag ∧ a.isEmpty = b.isEmpty)
    (htext : (Item.text "" a.items).toOption = (Item.text "" b.items).toOption)
    (hread : ReadAlike s shape a b) :
    ReadAlike s (.object h) ⟨tag, isEmpty, before ++ .element a :: after⟩
      ⟨tag, isEmpty, before ++ .element b :: after⟩ := by
  intro p q hp hq room allowed name
  obtain ⟨hend, hchildren⟩ := children_replace htag before after
  obtain ⟨hphead, hpitems⟩ := Element.open_eq_ok_iff.1 hp
  obtain ⟨hqhead, hqitems⟩ := Element.open_eq_ok_iff.1 hq
  obtain rfl := Except.ok.inj (hr.symm.trans hp)
  rw [show before ++ .element a :: after = r.items from hpitems.symm,
    show before ++ .element b :: after = q.items from hqitems.symm] at hend hchildren
  refine Tree.value_object_congr rfl rfl (fun room => ?_) room allowed name
  refine object_of_children P (Except.ok.inj (hphead.symm.trans hqhead)) hend
    (hchildren.imp fun u v huv => ⟨huv.head_eq htag, ?_⟩) fun dplan' plan' hd' hconcrete' =>
      hchildren.imp fun u v huv => ⟨huv.head_eq htag, fun shape' allowed hshape' => ?_⟩
  · rcases huv.cases htag with rfl | ⟨-, hu, hv, -⟩
    · rfl
    · rw [Child.text, Child.text, hu, hv, htext]
  · rcases huv with rfl | ⟨hu, hv⟩
    · rfl
    · -- the shape is the one of the property, as the concrete plan is found in the element itself
      obtain rfl := Option.some.inj (hd.symm.trans hd')
      obtain rfl := Except.ok.inj (hconcrete.symm.trans hconcrete')
      obtain rfl := Except.ok.inj (hx.symm.trans hu)
      obtain rfl := Option.some.inj (hshape.symm.trans hshape')
      exact hread _ _ hu hv room allowed _

/-- Sequences in elements of their own are read alike if an item is. -/
theorem ReadAlike.item {n : Bool} {wrapper : String} (htag : a.tag = b.tag ∧ a.isEmpty = b.isEmpty)
    (hread : ReadAlike s shape a b) :
    ReadAlike s (.sequence shape n (.wrapped wrapper)) ⟨tag, isEmpty, before ++ .element a :: after⟩
      ⟨tag, isEmpty, before ++ .element b :: after⟩ := by
  intro p q hp hq room allowed name
  obtain ⟨hend, hchildren⟩ := children_replace htag before after
  obtain ⟨-, hpitems⟩ := Element.open_eq_ok_iff.1 hp
  obtain ⟨-, hqitems⟩ := Element.open_eq_ok_iff.1 hq
  rw [show before ++ .element a :: after = p.items from hpitems.symm,
    show before ++ .element b :: after = q.items from hqitems.symm] at hend hchildren
  refine Tree.value_sequence_congr (t := Found.child p) (u := Found.child q) rfl rfl rfl rfl hend
    (fun room name => ?_) room allowed name
  refine toOption_mapM_congr (R := fun u v => (Tree.value s room shape n name u).toOption =
    (Tree.value s room shape n name v).toOption) ?_ fun _ _ huv => huv
  rw [List.forall₂_map_left_iff, List.forall₂_map_right_iff]
  refine hchildren.imp fun u v huv => ?_
  rcases huv with rfl | ⟨hu, hv⟩
  · rfl
  · exact hread _ _ hu hv room n name

/-- Flattened sequences are read alike if their item is. -/
theorem ReadAlike.flattened {n : Bool} (hread : ReadAlike s shape a b) :
    ReadAlike s (.sequence shape n .flattened) a b := by
  intro p q hp hq room allowed name
  refine Tree.value_sequence_congr (t := Found.child p) (u := Found.child q) rfl rfl rfl rfl rfl
    (fun room name => ?_) room allowed name
  rw [toOption_mapM, toOption_mapM, List.mapM_cons, List.mapM_cons, hread _ _ hp hq room n name]

/-- Mappings are read alike if the value of an entry is. -/
theorem ReadAlike.value {n : Bool} {tag' : Piece} {isEmpty' : Bool}
    {before' after' : List (Item Element)} (htag : a.tag = b.tag ∧ a.isEmpty = b.isEmpty)
    (hname : a.localName = Symbol.ofText "value") (hread : ReadAlike s shape a b) :
    ReadAlike s (.mapping shape n)
      ⟨tag, isEmpty, before ++ .element ⟨tag', isEmpty', before' ++ .element a :: after'⟩ :: after⟩
      ⟨tag, isEmpty,
        before ++ .element ⟨tag', isEmpty', before' ++ .element b :: after'⟩ :: after⟩ := by
  intro p q hp hq room allowed name
  obtain ⟨hend, hentries⟩ := children_replace
    (a := ⟨tag', isEmpty', before' ++ .element a :: after'⟩)
    (b := ⟨tag', isEmpty', before' ++ .element b :: after'⟩) ⟨rfl, rfl⟩ before after
  obtain ⟨hend', hchildren⟩ := children_replace htag before' after'
  obtain ⟨-, hpitems⟩ := Element.open_eq_ok_iff.1 hp
  obtain ⟨-, hqitems⟩ := Element.open_eq_ok_iff.1 hq
  refine Tree.value_mapping_congr (t := Found.child p) (u := Found.child q) rfl rfl rfl rfl
    (fun room => ?_) room allowed name
  rw [Child.children, Child.children, Child.childrenEnd, Child.childrenEnd, hpitems, hqitems, hend]
  refine ofEntries_congr (hentries.imp fun u v huv table => ?_) []
  rcases huv.cases ⟨rfl, rfl⟩ with rfl | ⟨hhead, hu, hv, -⟩
  · rfl
  · rw [show before' ++ .element a :: after' = u.items from hu.symm,
      show before' ++ .element b :: after' = v.items from hv.symm] at hend' hchildren
    exact ofEntry_replaced hhead hend' htag hname hchildren
      (fun _ _ ha hb key => hread _ _ ha hb room n key) table

end ReadAlike

/-- **A rearranged element is read as the same value**, or is not read either. -/
theorem readAlike_of_rearranged (P : c.PlannedBy f s) (h : Rearranged s shape a b) :
    ReadAlike s shape a b := by
  induction h with
  | trans h _ ih₁ ih₂ => exact ih₁.trans h.tag_eq ih₂
  | children hitems => exact readAlike_of_sameOrder P hitems
  | part hr hd hconcrete hx hshape h ih =>
    exact ih.part P hr hd hconcrete hx hshape h.tag_eq (h.text_eq "")
  | item h ih => exact ih.item h.tag_eq
  | flattened _ ih => exact ih.flattened
  | value hname h ih => exact ih.value h.tag_eq hname

/-- **A rearranged root is read as the same object**, or is not read either. -/
theorem root_of_rearranged (P : c.PlannedBy f s) {declared : Handle}
    (h : Rearranged s (.object declared) a b) :
    (do Tree.root s declared (Found.child (← a.open))).toOption =
      (do Tree.root s declared (Found.child (← b.open))).toOption := by
  rcases open_of_tag_eq h.tag_eq with ⟨e, ha, hb⟩ | ⟨head, ha, hb⟩
  · rw [ha, hb]
  · rw [ha, hb]
    exact Tree.root_congr rfl rfl fun allowed name =>
      readAlike_of_rearranged P h _ _ ha hb _ allowed name

end Marshal.Markup
