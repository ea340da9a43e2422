import Marshal.Proofs.Markup.Order
import Marshal.Proofs.Wire.Unbound

/-!
# Elements that are bound to nothing

An element in an object whose local name no property has is tolerated (`Markup.object_tolerates`),
whatever stands in it. Where the tag of another element is broken, the error is the same with it and
without it.
-/

namespace Marshal.Markup

open Decode Catalogue Outcome

variable {c : Catalogue} {s : PlanSet} {dplan plan : TypePlan} {declared : Handle} {e : Element}
  {p r r' : Child} {items : List (Item Element)} {before after : List Element}

/-! ## Children -/

/-- The elements among some items. -/
def Item.elements : List (Item Element) → List Element
  | [] => []
  | .event _ :: items => elements items
  | .element e :: items => e :: elements items

/-- What is handed out depends on the elements alone. -/
theorem children_elements (items : List (Item Element)) :
    Item.children ((Item.elements items).map .element) = Item.children items ∧
      Item.childrenEnd ((Item.elements items).map .element) = Item.childrenEnd items := by
  induction items with
  | nil => exact ⟨rfl, rfl⟩
  | cons i items ih =>
    cases i with
    | event e => exact ih
    | element e =>
      rw [Item.elements, List.map_cons, Item.children, Item.children, Item.childrenEnd,
        Item.childrenEnd, ih.1, ih.2]
      exact ⟨rfl, rfl⟩

/-- **An element more** is handed out in its place, unless a tag in front of it is broken. -/
theorem children_insert (he : e.open = .ok p) (before after : List (Item Element)) :
    Item.childrenEnd (before ++ .element e :: after) = Item.childrenEnd (before ++ after) ∧
    ((∃ f, Item.childrenEnd (before ++ after) = .error f ∧
        Item.children (before ++ .element e :: after) = Item.children (before ++ after)) ∨
      ∃ cs ds, Item.children (before ++ .element e :: after) = cs ++ p :: ds ∧
        Item.children (before ++ after) = cs ++ ds) := by
  induction before with
  | nil =>
    rw [List.nil_append, List.nil_append, Item.childrenEnd, Item.children, he]
    exact ⟨rfl, .inr ⟨[], Item.children after, rfl, rfl⟩⟩
  | cons i before ih =>
    cases i with
    | event i => exact ih
    | element i =>
      simp only [List.cons_append, Item.childrenEnd, Item.children]
      rcases i.open with f | q
      · exact ⟨rfl, .inl ⟨f, rfl, rfl⟩⟩
      · refine ⟨ih.1, ih.2.imp ?_ ?_⟩
        · rintro ⟨f, hf, hsame⟩
          exact ⟨f, hf, congrArg (q :: ·) hsame⟩
        · rintro ⟨cs, ds, hins, hout⟩
          exact ⟨q :: cs, ds, congrArg (q :: ·) hins, congrArg (q :: ·) hout⟩

/-- Whatever events stand between the elements. -/
theorem children_of_elements (hr : Item.elements r.items = before ++ after)
    (hr' : Item.elements r'.items = before ++ e :: after) (he : e.open = .ok p) :
    r'.childrenEnd = r.childrenEnd ∧
    ((∃ f, r.childrenEnd = .error f ∧ r'.children = r.children) ∨
      ∃ cs ds, r'.children = cs ++ p :: ds ∧ r.children = cs ++ ds) := by
  have h := children_insert he (before.map .element) (after.map .element)
  rw [← List.map_cons (f := Item.element), ← List.map_append, ← List.map_append, ← hr, ← hr',
    (children_elements r.items).1, (children_elements r.items).2, (children_elements r'.items).1,
    (children_elements r'.items).2] at h
  exact h

/-- An element with the same tag has the same attributes, whether it is one tag or two. -/
theorem Element.exists_open_of_tag_eq {a b : Element} (htag : b.tag = a.tag) (h : a.open = .ok r) :
    ∃ r', b.open = .ok r' ∧ r'.head.attributes = r.head.attributes := by
  obtain ⟨hhead, -⟩ := Element.open_eq_ok_iff.1 h
  obtain ⟨name, hname, hhead⟩ := bind_eq_ok_iff.1 hhead
  obtain ⟨attributes, hattributes, hhead⟩ := bind_eq_ok_iff.1 hhead
  refine ⟨⟨⟨name, attributes, b.isEmpty⟩, b.items⟩, Element.open_eq_ok_iff.2 ⟨?_, rfl⟩, ?_⟩
  · rw [htag]
    exact bind_eq_ok_iff.2 ⟨name, hname, bind_eq_ok_iff.2 ⟨attributes, hattributes, rfl⟩⟩
  · rw [← pure_eq_ok_iff.1 hhead]

/-- The text of an element is found without regard to another name. -/
theorem firstText_insert {name : String} (hn : p.head.name ≠ name) (cs ds : List Child)
    (x : Except DecodeError Unit) :
    Child.firstText name (cs ++ p :: ds) x = Child.firstText name (cs ++ ds) x := by
  induction cs with
  | nil => rw [List.nil_append, List.nil_append, Child.firstText, if_neg hn]
  | cons q cs ih => rw [List.cons_append, List.cons_append, Child.firstText, Child.firstText, ih]

/-! ## Objects -/

section Object

variable (hattributes : r'.head.attributes = r.head.attributes)
  (hr : Item.elements r.items = before ++ after) (hr' : Item.elements r'.items = before ++ e :: after)
  (he : e.open = .ok p)

include hattributes hr hr' he

/-- A text that is found ahead is the same with the element, under any other name. -/
theorem text?_insert {name : String} {placement : Placement}
    (hn : ¬ (name = p.head.name ∧ placement = .element)) :
    Tree.text? (Found.child r') name placement = Tree.text? (Found.child r) name placement := by
  rcases placement with _ | _
  · show Child.firstText name r'.children r'.childrenEnd = Child.firstText name r.children r.childrenEnd
    obtain ⟨hend, ⟨_, -, hsame⟩ | ⟨cs, ds, hins, hout⟩⟩ := children_of_elements hr hr' he
    · rw [hsame, hend]
    · rw [hins, hout, hend, firstText_insert fun hname => hn ⟨hname.symm, rfl⟩]
  · show Except.ok _ = Except.ok _
    rw [hattributes]

/-- **An element that is bound to nothing is tolerated**, wherever it stands in the object. -/
theorem object_tolerates (P : c.PlannedBy .xml s) {inner : Tree.Inner Found}
    (hd : s.type? declared = some dplan)
    (hplan : Tree.concretePlan s dplan (Found.child r) = .ok plan)
    (hk : boundAction plan p.head.name .element = none) :
    Tree.Tolerates inner plan (Found.ofAttributes r.head.attributes ++ Found.ofChildren r.children)
      p.head.name (Found.child p) (Tree.object s inner declared (Found.child r))
      (Tree.object s inner declared (Found.child r')) := by
  have hplan' : Tree.concretePlan s dplan (Found.child r') = .ok plan :=
    Tree.concretePlan_of_unbound P hd hplan hk fun q hq => text?_insert hattributes hr hr' he hq
  obtain ⟨hend, ⟨f, hfault, hsame⟩ | ⟨cs, ds, hins, hout⟩⟩ := children_of_elements hr hr' he
  · have hobject : Tree.object s inner declared (Found.child r') =
        Tree.object s inner declared (Found.child r) := by
      rw [Tree.object_eq_scan hd rfl hplan, Tree.object_eq_scan hd rfl hplan', hattributes, hsame]
      show (_ >>= fun scan => r'.childrenEnd >>= _) = (_ >>= fun scan => r.childrenEnd >>= _)
      rw [hend]
    exact ⟨fun _ => hobject, fun _ _ _ _ _ =>
      hobject.trans (Tree.object_map_of_fault hd rfl hplan hfault _).symm⟩
  · have hparts : Tree.parts (Found.child r) = .ok
        ((Found.ofAttributes r.head.attributes ++ Found.ofChildren cs) ++ Found.ofChildren ds) := by
      show Except.ok (_ ++ Found.ofChildren r.children) = _
      rw [hout, Found.ofChildren, List.map_append, ← List.append_assoc]
      rfl
    have hparts' : Tree.parts (Found.child r') = .ok
        ((Found.ofAttributes r.head.attributes ++ Found.ofChildren cs) ++
          (p.head.name, .element, Found.child p) :: Found.ofChildren ds) := by
      show Except.ok (_ ++ Found.ofChildren r'.children) = _
      rw [hins, hattributes, Found.ofChildren, List.map_append, List.map_cons, ← List.append_assoc]
      rfl
    refine ⟨fun hnone => ?_, fun target v htarget hfresh hv => ?_⟩
    · exact Tree.object_of_bound_eq hd hparts hparts' hend hplan hplan' hnone (Tree.bound_insert hk _ _)
    · refine Tree.object_of_captured (x := (p.head.name, .element, Found.child p)) P hd hparts hparts'
        hend hplan hplan' htarget hk hv fun y hy => hfresh y ?_
      rw [hout, Found.ofChildren, List.map_append]
      exact List.mem_append_right _ (List.mem_append_right _ hy)

end Object

end Marshal.Markup
