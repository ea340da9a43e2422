import Marshal.Proofs.Markup.Collections

/-!
# Properties in markup

What is read of one property of an object: `Gained` says that its parts give a scan what some fields
hold of it, and `PartReturns` that they do so where they fit, and that reading them fails for their
depth alone where they do not. A part of a property comes back from at most one node
(`partReturns_of_node`), a flattened sequence from its siblings (`partReturns_of_siblings`), and a
carrier from the nodes under the names of no property (`partReturns_of_captured`). What the type that
an object is read as does not have is passed (`partReturns_of_foreign`).
-/

namespace Marshal

open Catalogue Markup Draft Decode

/-! ## Scans -/

namespace Decode

variable {scan : Scan} {fields : Table String Value} {p q : Property}

/-- A scan to which a property has not given anything. -/
def Scan.Lacks (scan : Scan) (p : Property) : Prop :=
  if p.carrier then scan.extra = [] else Table.find? scan.fields p.name = none

/-- A scan with a field. -/
def Scan.put (scan : Scan) (name : String) (v : Value) : Scan :=
  { scan with fields := Table.insert scan.fields name v }

theorem Scan.put_put (scan : Scan) (name : String) (v w : Value) :
    (scan.put name v).put name w = scan.put name w := by
  rw [put, put, put, Table.insert_insert]

theorem Scan.absorb_some (hc : p.carrier = false) {v : Value}
    (h : Table.find? fields p.name = some v) (scan : Scan) :
    scan.absorb fields p = scan.put p.name v := by
  rw [absorb, if_neg (by simp [hc]), h]
  rfl

/-- The first value under a name is stored as it is. -/
theorem Scan.assign_of_find?_eq_none {a : Action} (h : Table.find? scan.fields a.property = none)
    (v : Value) : scan.assign a v = scan.put a.property v := by
  unfold Scan.assign
  dsimp only
  rw [h]
  rfl

/-- What another property gives is not what a property lacks. -/
theorem Scan.Lacks.absorb (h : scan.Lacks q) (hn : q.name ≠ p.name)
    (hc : ¬ (q.carrier = true ∧ p.carrier = true)) : (scan.absorb fields p).Lacks q := by
  unfold Lacks at h ⊢
  rw [Scan.absorb]
  cases hp : p.carrier with
  | true =>
    have hq : q.carrier = false := Bool.eq_false_iff.2 fun hq => hc ⟨hq, hp⟩
    rw [hq, if_neg Bool.false_ne_true] at h ⊢
    rw [if_pos rfl]
    exact h
  | false =>
    rw [if_neg Bool.false_ne_true]
    rcases Table.find? fields p.name with _ | v
    · exact h
    · cases hq : q.carrier with
      | true =>
        rw [hq, if_pos rfl] at h
        rw [if_pos rfl]
        exact h
      | false =>
        rw [hq, if_neg Bool.false_ne_true] at h
        rw [if_neg Bool.false_ne_true]
        dsimp only
        rw [Table.find?_insert, if_neg hn, h]

end Decode

/-! ## Nodes of parts -/

namespace Markup

variable {key : String} {placement : Placement} {d : Draft}

/-- What is not flattened is read as one node at most. -/
theorem Node.ofPart_of_not_flattened (hk : ':' ∉ key.toList) (hf : d.isFlattened = false)
    (ha : placement = .attribute → d = .null ∨ ∃ t h, d = .scalar t h) (hn : d.isNull = false) :
    ∃ node, Presents node d ∧ Node.ofPart (key, placement, d) = [(key, placement, node)] := by
  cases placement with
  | element =>
    refine ⟨.element key (ofDraft d), .element hn, ?_⟩
    rw [Node.ofPart, elementsAt_of_not_flattened hf, hn, if_neg Bool.false_ne_true]
    simp [Node.ofAttributes, Node.ofChildren, attributeOf?, localName_eq_self hk]
  | «attribute» =>
    rcases ha rfl with rfl | ⟨t, h, rfl⟩
    · cases hn
    · exact ⟨.plain t.spelling, .plain, rfl⟩

theorem Node.ofPart_null (key : String) (placement : Placement) :
    Node.ofPart (key, placement, .null) = [] := by
  cases placement <;> rfl

/-- The siblings of a flattened sequence. -/
theorem Node.ofPart_flattened (hk : ':' ∉ key.toList) (ds : List Draft) :
    Node.ofPart (key, .element, .sequence .flattened ds) =
      (itemNodes key ds).map fun node => (key, .element, node) := by
  rw [Node.ofPart, elementsAt, itemsOf_eq_map, itemNodes, Node.ofChildren, List.map_map, List.map_map]
  simp [Node.ofAttributes, attributeOf?, localName_eq_self hk, Function.comp_def]

end Markup

/-! ## Parts -/

/-- **What a scan gains** from what is read of a property is what some fields hold of it: everything
if it is legible, and enough to make an object of the type that is read. -/
structure Gained (c : Catalogue) (u : Handle) (step : Scan → String × Placement × Node →
    Except DecodeError Scan) (legible : Prop) (fields back : Table String Value) (p : Property)
    (xs : List (String × Placement × Node)) : Prop where
  run : ∀ scan : Scan, scan.Lacks p → xs.foldlM step scan = .ok (scan.absorb back p)
  required : p ∈ c.plannedProperties u → p.carrier = false → p.required = true →
    ∃ v, Table.find? back p.name = some v
  carried : p.carrier = true → ∀ v, Table.find? back p.name = some v →
    ∃ es, v = .map es ∧ es ≠ [] ∧ Table.Ascending es
  foreign : p ∉ c.plannedProperties u → Table.find? back p.name = none
  legible : legible → Table.find? back p.name = Table.find? fields p.name

theorem Gained.congr {c : Catalogue} {u : Handle}
    {step : Scan → String × Placement × Node → Except DecodeError Scan} {legible : Prop}
    {fields back back' : Table String Value} {p : Property} {xs : List (String × Placement × Node)}
    (h : Gained c u step legible fields back p xs)
    (he : Table.find? back p.name = Table.find? back' p.name) :
    Gained c u step legible fields back' p xs where
  run scan hs := by rw [h.run scan hs, Scan.absorb_congr he]
  required := he ▸ h.required
  carried := he ▸ h.carried
  foreign := he ▸ h.foreign
  legible := he ▸ h.legible

/-- **What is written of a property comes back** from its nodes, which are read along the plan of
`u`: it is gained where it fits, and where it does not, reading is refused for that. -/
structure PartReturns (c : Catalogue) (s : PlanSet) (room : Nat) (n : Bool) (h t u : Handle)
    (uplan : TypePlan) (fields : Table String Value) (p : Property)
    (xs : List (String × Placement × Node)) : Prop where
  read : (∀ v, Table.find? fields p.name = some v → c.nesting p.carrier v ≤ room) →
    c.Readable (.named h) (.object t fields) →
      ∃ back, Gained c u (Tree.field (Tree.value s room) uplan)
        (c.Legible n (.named h) (.object t fields)) fields back p xs
  sound : c.Legible n (.named h) (.object t fields) → ∀ x ∈ xs, ∀ scan,
    (∃ scan', Tree.field (Tree.value s room) uplan scan x = .ok scan') ∨
      TooDeep (Tree.field (Tree.value s room) uplan scan x)
  deep : c.Legible n (.named h) (.object t fields) → ∀ v, Table.find? fields p.name = some v →
    room < c.nesting p.carrier v →
      ∃ x ∈ xs, ∀ scan, TooDeep (Tree.field (Tree.value s room) uplan scan x)

section Parts

variable {c : Catalogue} {s : PlanSet} {room : Nat} {n : Bool} {h t u : Handle} {o : ObjectType}
  {plan uplan : TypePlan} {fields : Table String Value} {p : Property} {key : String}
  {placement : Placement} {shape : Shape}

/-- Nothing comes back from nothing. -/
theorem partReturns_nil
    (hrequired : c.Readable (.named h) (.object t fields) → p.carrier = false → p.required = false)
    (hfields : c.Legible n (.named h) (.object t fields) → Table.find? fields p.name = none) :
    PartReturns c s room n h t u uplan fields p [] where
  read _ R := by
    refine ⟨[], fun scan _ => ?_, fun _ hc hr => ?_, (fun _ _ hv => by cases hv), fun _ => rfl,
      fun T => (hfields T).symm⟩
    · rw [Scan.absorb_none rfl]
      rfl
    · simp [hrequired R hc] at hr
  sound _ := by simp
  deep T v hv := by simp [hfields T] at hv

/-- **A part comes back from its one node.** -/
theorem partReturns_of_node {node : Node} (hc : p.carrier = false) (hp : p ∈ c.plannedProperties u)
    (hb : boundAction uplan key placement = some (fieldAction .xml p shape))
    (hflat : shape.isFlattened = false)
    (hread : (∀ v, Table.find? fields p.name = some v → c.nesting false v ≤ room) →
      c.Readable (.named h) (.object t fields) →
        ∃ v', Tree.value s room shape p.nullable key node = .ok v' ∧
          (c.Legible n (.named h) (.object t fields) → Table.find? fields p.name = some v'))
    (hdeep : c.Legible n (.named h) (.object t fields) → ∀ v, Table.find? fields p.name = some v →
      room < c.nesting false v → TooDeep (Tree.value s room shape p.nullable key node)) :
    PartReturns c s room n h t u uplan fields p [(key, placement, node)] where
  read hfit R := by
    rw [hc] at hfit
    obtain ⟨v', hv', hself⟩ := hread hfit R
    have hback : Table.find? [(p.name, v')] p.name = some v' := if_pos rfl
    refine ⟨[(p.name, v')], fun scan _ => ?_, fun _ _ _ => ⟨v', hback⟩, fun hcar => ?_,
      fun hnot => absurd hp hnot, fun T => by rw [hback, hself T]⟩
    · rw [List.foldlM_cons, Tree.field_bound hb, Scan.absorb_some hc hback]
      refine Outcome.bind_eq_ok_iff.2 ⟨_, Outcome.bind_eq_ok_iff.2 ⟨v', hv', rfl⟩, ?_⟩
      rw [Scan.assign_of_not_flattened _ hflat]
      rfl
    · simp [hc] at hcar
  sound T x hx scan := by
    obtain rfl := List.mem_singleton.1 hx
    rw [Tree.field_bound hb]
    by_cases hfit : ∀ v, Table.find? fields p.name = some v → c.nesting false v ≤ room
    · obtain ⟨v', hv', -⟩ := hread hfit T.readable
      exact .inl ⟨_, Outcome.bind_eq_ok_iff.2 ⟨v', hv', rfl⟩⟩
    · push Not at hfit
      obtain ⟨v, hv, hlt⟩ := hfit
      exact .inr ((hdeep T v hv hlt).bind _)
  deep T v hv hlt := by
    rw [hc] at hlt
    refine ⟨_, List.mem_singleton_self _, fun scan => ?_⟩
    rw [Tree.field_bound hb]
    exact (hdeep T v hv hlt).bind _

/-! ### Siblings -/

/-- Siblings after the first are joined to those before them. -/
theorem foldlM_siblings {inner : Tree.Inner Node} {f : Node → Except DecodeError Value} {a : Action}
    (hb : boundAction uplan key .element = some a) (hflat : a.shape.isFlattened = true)
    {nodes : List Node} {vs : List Value}
    (hinner : ∀ node ∈ nodes, inner a.shape a.nullable key node = (f node >>= fun v => pure (.list [v])))
    (hrun : nodes.mapM f = .ok vs) (scan : Scan) (earlier : List Value) :
    (nodes.map fun node => (key, Placement.element, node)).foldlM (Tree.field inner uplan)
        (scan.put a.property (.list earlier)) =
      .ok (scan.put a.property (.list (earlier ++ vs))) := by
  induction nodes generalizing earlier vs with
  | nil =>
    rw [List.mapM_nil] at hrun
    obtain rfl := Outcome.pure_eq_ok_iff.1 hrun
    rw [List.append_nil]
    rfl
  | cons node nodes ih =>
    obtain ⟨hnode, hnodes⟩ := List.forall_mem_cons.1 hinner
    rw [List.mapM_cons] at hrun
    obtain ⟨v, hv, hrun⟩ := Outcome.bind_eq_ok_iff.1 hrun
    obtain ⟨vs', hvs, hrun⟩ := Outcome.bind_eq_ok_iff.1 hrun
    obtain rfl := Outcome.pure_eq_ok_iff.1 hrun
    rw [List.map_cons, List.foldlM_cons, Tree.field_bound hb, hnode, hv]
    have hassign : (scan.put a.property (.list earlier)).assign a (.list [v]) =
        scan.put a.property (.list (earlier ++ [v])) := by
      have hfind : Table.find? (scan.put a.property (.list earlier)).fields a.property =
          some (.list earlier) := Table.find?_insert_self _ _ _
      unfold Scan.assign
      dsimp only
      rw [hfind]
      dsimp only
      rw [if_pos hflat]
      exact Scan.put_put scan a.property _ _
    refine Outcome.bind_eq_ok_iff.2 ⟨_, rfl, ?_⟩
    rw [hassign, ih hnodes hvs, List.append_assoc]
    rfl

/-- Siblings are joined to one sequence. -/
theorem foldlM_siblings_of_find?_eq_none {inner : Tree.Inner Node}
    {f : Node → Except DecodeError Value} {a : Action}
    (hb : boundAction uplan key .element = some a) (hflat : a.shape.isFlattened = true)
    {nodes : List Node} {vs : List Value}
    (hinner : ∀ node ∈ nodes, inner a.shape a.nullable key node = (f node >>= fun v => pure (.list [v])))
    (hrun : nodes.mapM f = .ok vs) (hne : vs ≠ []) {scan : Scan}
    (hlacks : Table.find? scan.fields a.property = none) :
    (nodes.map fun node => (key, Placement.element, node)).foldlM (Tree.field inner uplan) scan =
      .ok (scan.put a.property (.list vs)) := by
  cases nodes with
  | nil => exact absurd (Outcome.pure_eq_ok_iff.1 hrun).symm hne
  | cons node nodes =>
    obtain ⟨hnode, hnodes⟩ := List.forall_mem_cons.1 hinner
    rw [List.mapM_cons] at hrun
    obtain ⟨v, hv, hrun⟩ := Outcome.bind_eq_ok_iff.1 hrun
    obtain ⟨vs', hvs, hrun⟩ := Outcome.bind_eq_ok_iff.1 hrun
    obtain rfl := Outcome.pure_eq_ok_iff.1 hrun
    rw [List.map_cons, List.foldlM_cons, Tree.field_bound hb, hnode, hv]
    refine Outcome.bind_eq_ok_iff.2 ⟨_, rfl, ?_⟩
    rw [Scan.assign_of_find?_eq_none hlacks]
    exact foldlM_siblings hb hflat hnodes hvs scan [v]

/-- **What a scan gains from siblings** is the list of their values, if there are any. -/
theorem exists_gained_of_siblings {inner : Tree.Inner Node} {f : Node → Except DecodeError Value}
    (hc : p.carrier = false) (hu : p ∈ c.plannedProperties u)
    (hb : boundAction uplan key .element = some (fieldAction .xml p shape))
    (hflat : shape.isFlattened = true) {nodes : List Node} {vs : List Value}
    (hinner : ∀ node ∈ nodes, inner shape p.nullable key node = (f node >>= fun v => pure (.list [v])))
    (hrun : nodes.mapM f = .ok vs) (hrequired : p.required = true → vs ≠ []) {legible : Prop}
    (hlegible : legible → vs ≠ [] ∧ Table.find? fields p.name = some (.list vs)) :
    ∃ back, Gained c u (Tree.field inner uplan) legible fields back p
      (nodes.map fun node => (key, Placement.element, node)) := by
  by_cases hne : vs = []
  · subst hne
    obtain rfl : nodes = [] := List.forall₂_nil_right_iff.1 (Outcome.mapM_eq_ok_iff.1 hrun)
    refine ⟨[], fun scan _ => ?_, fun _ _ hr => absurd rfl (hrequired hr),
      (fun _ _ hv => by cases hv), fun _ => rfl, fun T => absurd rfl (hlegible T).1⟩
    rw [Scan.absorb_none rfl]
    rfl
  · have hfind : Table.find? [(p.name, Value.list vs)] p.name = some (.list vs) := if_pos rfl
    refine ⟨[(p.name, .list vs)], fun scan hlacks => ?_, fun _ _ _ => ⟨_, hfind⟩,
      fun hcar => by simp [hc] at hcar, fun hnot => absurd hu hnot,
      fun T => hfind.trans (hlegible T).2.symm⟩
    rw [Scan.Lacks, hc, if_neg Bool.false_ne_true] at hlacks
    rw [Scan.absorb_some hc hfind]
    exact foldlM_siblings_of_find?_eq_none hb hflat hinner hrun hne hlacks

theorem exists_of_mem_itemNodes {name : String} {ds : List Draft} {node : Node}
    (h : node ∈ itemNodes name ds) : ∃ content, node = .element name content := by
  obtain ⟨d, -, rfl⟩ := List.mem_map.1 h
  exact ⟨_, rfl⟩

/-- A flattened sequence is read sibling by sibling. -/
theorem value_of_mem_itemNodes {name : String} {ds : List Draft} {node : Node}
    (h : node ∈ itemNodes name ds) (element : Shape) (m : Bool) (allowed : Bool) (key : String)
    (room : Nat) :
    Tree.value s (room + 1) (.sequence element m .flattened) allowed key node =
      (Tree.value s room element m key node >>= fun v => pure (.list [v])) := by
  obtain ⟨content, rfl⟩ := exists_of_mem_itemNodes h
  rw [Tree.value_of_not_null rfl, Tree.innerOf, Tree.shaped]
  show ((do
    let vs ← [Node.element name content].mapM (Tree.value s room element m key)
    pure (.list vs)) : Except DecodeError Value) = _
  rw [List.mapM_cons]
  cases Tree.value s room element m key (Node.element name content) <;> rfl

/-- Without room no sibling is read. -/
theorem tooDeep_of_mem_itemNodes {name : String} {ds : List Draft} {node : Node}
    (h : node ∈ itemNodes name ds) (element : Shape) (m : Bool) (allowed : Bool) (key : String) :
    TooDeep (Tree.value s 0 (.sequence element m .flattened) allowed key node) := by
  obtain ⟨content, rfl⟩ := exists_of_mem_itemNodes h
  exact ⟨key, by rw [Tree.value_of_not_null rfl]; rfl⟩

/-- **A flattened sequence comes back** from its siblings. -/
theorem partReturns_of_siblings {r : Reference} {m : Bool} {vs : List Value} {ds : List Draft}
    (hc : p.carrier = false) (hp : p ∈ c.plannedProperties t) (hu : p ∈ c.plannedProperties u)
    (hd : ¬ c.Distinguishes t p) (hlayout : p.layout = .flattened)
    (hb : boundAction uplan key .element = some (fieldAction .xml p (.sequence shape m .flattened)))
    (htype : p.type = .collection .sequence r m) (hs : c.Forms .standard r shape)
    (hfound : Table.find? fields p.name = some (.list vs))
    (hrel : List.Forall₂ (fun v d => ofValue? s shape m v = some d) vs ds)
    (H : ∀ v ∈ vs, Returns c s v) :
    PartReturns c s room n h t u uplan fields p
      ((itemNodes key ds).map fun node => (key, Placement.element, node)) := by
  have hback : ∀ room, ∀ v ∈ vs, ∀ node d, Presents node d → ofValue? s shape m v = some d →
      ComesBack c room m r v (Tree.value s room shape m key node) := fun room v hv node d hnode hvd =>
    H v hv _ r shape m d hs hs.not_flattened hvd room key node hnode
  have hinner : ∀ room, ∀ node ∈ itemNodes key ds,
      Tree.value s (room + 1) (.sequence shape m .flattened) p.nullable key node =
        (Tree.value s room shape m key node >>= fun v => pure (.list [v])) :=
    fun room node hnode => value_of_mem_itemNodes hnode shape m _ key room
  have hlegible : c.Legible n (.named h) (.object t fields) → ∀ v ∈ vs, c.Legible m r v ∧ v ≠ .null := by
    intro T v hv
    have hlist := T.field hp hc hd hfound
    rw [htype] at hlist
    refine ⟨hlist.item hv, ?_⟩
    rintro rfl
    exact hlist.lists _ vs .refl hv
  have hfilled : c.Legible n (.named h) (.object t fields) → vs ≠ [] := by
    rintro T rfl
    exact (T.objects h t fields .refl).2.filled p hp hlayout hfound
  constructor
  · intro hfit R
    have hle := hfit _ hfound
    obtain ⟨room, rfl⟩ := Nat.exists_eq_add_of_le' (Nat.le_trans (Nat.le_add_left 1 _) hle)
    have hlist := R.field hp hc hd hfound
    rw [htype] at hlist
    obtain ⟨vs', hrun, hsome, hself⟩ := exists_mapM key hrel (hback room) (nesting_list_le_iff.1 hle)
      fun v hv => hlist.item hv
    refine exists_gained_of_siblings hc hu hb rfl (hinner room) hrun (fun hr => hsome ?_) fun T => ?_
    · exact (R.objects h t fields .refl).flattened p hp hc hr hd hlayout vs hfound
    · rw [hself (hlegible T)]
      exact ⟨hfilled T, hfound⟩
  · intro T x hx scan
    obtain ⟨node, hnode, rfl⟩ := List.mem_map.1 hx
    rw [Tree.field_bound hb]
    rcases room with _ | room
    · exact .inr ((tooDeep_of_mem_itemNodes hnode shape m _ key).bind _)
    · have hv := hinner room node hnode
      rcases forall_itemNodes key hrel (hback room) (fun v hv => (hlegible T v hv).1) node hnode with
        ⟨v, hrun⟩ | hdeep
      · rw [hrun] at hv
        exact .inl ⟨_, Outcome.bind_eq_ok_iff.2 ⟨.list [v], hv, rfl⟩⟩
      · refine .inr (TooDeep.bind ?_ _)
        show TooDeep (Tree.value s (room + 1) (.sequence shape m .flattened) p.nullable key node)
        rw [hv]
        exact hdeep.bind _
  · intro T v hv hlt
    obtain rfl := Option.some.inj (hfound.symm.trans hv)
    rcases room with _ | room
    · obtain ⟨w, ws, rfl⟩ := List.exists_cons_of_ne_nil (hfilled T)
      obtain ⟨node, hnode⟩ := exists_mem_itemNodes key hrel List.mem_cons_self
        (hlegible T w List.mem_cons_self).2
      refine ⟨_, List.mem_map.2 ⟨node, hnode, rfl⟩, fun scan => ?_⟩
      rw [Tree.field_bound hb]
      exact (tooDeep_of_mem_itemNodes hnode shape m _ key).bind _
    · obtain ⟨node, hnode, hdeep⟩ := exists_tooDeep_itemNodes key hrel (hback room)
        (fun v hv => (hlegible T v hv).1) (exists_lt_nesting_of_list hlt)
      refine ⟨_, List.mem_map.2 ⟨node, hnode, rfl⟩, fun scan => ?_⟩
      rw [Tree.field_bound hb]
      refine TooDeep.bind ?_ _
      show TooDeep (Tree.value s (room + 1) (.sequence shape m .flattened) p.nullable key node)
      rw [hinner room node hnode]
      exact hdeep.bind _

/-! ### Captured entries -/

section Captured

variable {r : Reference} {m : Bool} {es : List (String × Value)}
  {ps : List (String × Placement × Draft)}

/-- The parts of captured entries, which stand under their keys. -/
def Captures (s : PlanSet) (shape : Shape) (m : Bool) (es : List (String × Value))
    (ps : List (String × Placement × Draft)) : Prop :=
  List.Forall₂ (fun e x => x.1 = e.1 ∧ x.2.1 = .element ∧ ofValue? s shape m e.2 = some x.2.2) es ps

/-- A captured entry is read as one node at most. -/
theorem exists_node_of_captured {k : String} {v : Value} {d : Draft} (hs : c.Forms .standard r shape)
    (hk : ':' ∉ k.toList) (hd : ofValue? s shape m v = some d) :
    (v = .null ∧ Node.ofPart (k, .element, d) = []) ∨
      v ≠ .null ∧ ∃ node, Presents node d ∧ Node.ofPart (k, .element, d) = [(k, .element, node)] := by
  have hnull := isNull_of_ofValue? hd
  cases hn : d.isNull with
  | true =>
    refine .inl ⟨hnull.1 hn, ?_⟩
    cases d with
    | null => exact Node.ofPart_null k .element
    | _ => cases hn
  | false =>
    refine .inr ⟨fun hv => ?_, Node.ofPart_of_not_flattened hk (not_flattened_of_forms hs hd)
      (fun ha => by cases ha) hn⟩
    rw [hnull.2 hv] at hn
    cases hn

/-- What is read of captured entries. -/
theorem exists_captured (hcar : uplan.read.carrier = some ⟨p.name, shape, m⟩)
    (hs : c.Forms .standard r shape) (H : Captures s shape m es ps)
    (hfree : ∀ e ∈ es, boundAction uplan e.1 .element = none) (hk : ∀ e ∈ es, ':' ∉ e.1.toList)
    (h : ∀ e ∈ es, Returns c s e.2) (hfit : ∀ e ∈ es, c.nesting false e.2 ≤ room)
    (hread : ∀ e ∈ es, c.Readable r e.2) :
    ∃ es', (∀ scan : Scan, (ps.flatMap Node.ofPart).foldlM (Tree.field (Tree.value s room) uplan) scan =
        .ok { scan with extra := es'.foldl (fun t e => Table.insert t e.1 e.2) scan.extra }) ∧
      ((∀ e ∈ es, c.Legible m r e.2 ∧ e.2 ≠ .null) → es' = es) := by
  induction H with
  | nil => exact ⟨[], fun _ => rfl, fun _ => rfl⟩
  | @cons e x es ps hx _ ih =>
    obtain ⟨k, v⟩ := e
    obtain ⟨k', pl, d⟩ := x
    obtain ⟨rfl, rfl, hd⟩ := hx
    rw [List.forall_mem_cons] at hfree hk h hfit hread
    obtain ⟨es', hrun, hself⟩ := ih hfree.2 hk.2 h.2 hfit.2 hread.2
    rcases exists_node_of_captured hs hk.1 hd with ⟨hv, hnil⟩ | ⟨-, node, hnode, hone⟩
    · refine ⟨es', fun scan => ?_, fun T => absurd hv (T _ List.mem_cons_self).2⟩
      rw [List.flatMap_cons, hnil, List.nil_append]
      exact hrun scan
    · obtain ⟨v', hv', hlegible⟩ :=
        (h.1 _ r shape m d hs hs.not_flattened hd room k' node hnode).read hfit.1 hread.1
      refine ⟨(k', v') :: es', fun scan => ?_, fun T => ?_⟩
      · rw [List.flatMap_cons, hone, List.singleton_append, List.foldlM_cons,
          Tree.field_captured hfree.1 hcar]
        exact Outcome.bind_eq_ok_iff.2 ⟨_, Outcome.bind_eq_ok_iff.2 ⟨v', hv', rfl⟩, hrun _⟩
      · rw [List.forall_mem_cons] at T
        rw [hlegible T.1.1, hself T.2]

/-- Captured entries that are legible come back or stand too deep. -/
theorem tooDeep_captured (hcar : uplan.read.carrier = some ⟨p.name, shape, m⟩)
    (hs : c.Forms .standard r shape) (H : Captures s shape m es ps)
    (hfree : ∀ e ∈ es, boundAction uplan e.1 .element = none) (hk : ∀ e ∈ es, ':' ∉ e.1.toList)
    (h : ∀ e ∈ es, Returns c s e.2) (T : ∀ e ∈ es, c.Legible m r e.2) :
    (∀ x ∈ ps.flatMap Node.ofPart, ∀ scan,
      (∃ scan', Tree.field (Tree.value s room) uplan scan x = .ok scan') ∨
        TooDeep (Tree.field (Tree.value s room) uplan scan x)) ∧
      ((∃ e ∈ es, room < c.nesting false e.2) → ∃ x ∈ ps.flatMap Node.ofPart, ∀ scan,
        TooDeep (Tree.field (Tree.value s room) uplan scan x)) := by
  have hone : ∀ {e x}, e ∈ es → x.1 = e.1 → x.2.1 = .element →
      ofValue? s shape m e.2 = some x.2.2 → ∀ y ∈ Node.ofPart x, ∀ scan,
        ((∃ scan', Tree.field (Tree.value s room) uplan scan y = .ok scan') ∨
          TooDeep (Tree.field (Tree.value s room) uplan scan y)) ∧
        (room < c.nesting false e.2 → TooDeep (Tree.field (Tree.value s room) uplan scan y)) := by
    rintro ⟨k, v⟩ ⟨k', pl, d⟩ he rfl rfl hd y hy scan
    rcases exists_node_of_captured hs (hk _ he) hd with ⟨-, hnil⟩ | ⟨-, node, hnode, hone⟩
    · rw [hnil] at hy
      cases hy
    · rw [hone] at hy
      obtain rfl := List.mem_singleton.1 hy
      rw [Tree.field_captured (hfree _ he) hcar]
      have hback := h _ he _ r shape m d hs hs.not_flattened hd room k' node hnode
      refine ⟨?_, fun hlt => (hback.deep hlt (T _ he)).bind _⟩
      rcases Nat.lt_or_ge room (c.nesting false v) with hlt | hle
      · exact .inr ((hback.deep hlt (T _ he)).bind _)
      · obtain ⟨v', hv', -⟩ := hback.read hle (T _ he).readable
        exact .inl ⟨_, Outcome.bind_eq_ok_iff.2 ⟨v', hv', rfl⟩⟩
  constructor
  · intro y hy scan
    obtain ⟨x, hx, hy⟩ := List.mem_flatMap.1 hy
    obtain ⟨e, he, hk, hpl, hd⟩ := Outcome.forall₂_exists_right H hx
    exact (hone he hk hpl hd y hy scan).1
  · rintro ⟨e, he, hlt⟩
    obtain ⟨x, hx, hxk, hpl, hd⟩ := Outcome.forall₂_exists_left H he
    obtain ⟨k', pl, d⟩ := x
    obtain rfl : k' = e.1 := hxk
    obtain rfl : pl = .element := hpl
    rcases exists_node_of_captured hs (hk _ he) hd with ⟨hv, -⟩ | ⟨-, node, -, hnode⟩
    · rw [hv] at hlt
      exact absurd hlt (Nat.not_lt_zero _)
    · have hy : (e.1, Placement.element, node) ∈ Node.ofPart (e.1, .element, d) := by
        rw [hnode]
        exact List.mem_singleton_self _
      exact ⟨_, List.mem_flatMap.2 ⟨_, hx, hy⟩, fun scan => (hone he rfl rfl hd _ hy scan).2 hlt⟩

/-- **What a scan gains from captured entries** is the map of them, if there are any. -/
theorem exists_gained_of_captured {step : Scan → String × Placement × Node → Except DecodeError Scan}
    {xs : List (String × Placement × Node)} (hc : p.carrier = true)
    (hp : p ∈ c.plannedProperties u) {es : List (String × Value)}
    (hrun : ∀ scan : Scan, xs.foldlM step scan =
      .ok { scan with extra := es.foldl (fun t e => Table.insert t e.1 e.2) scan.extra })
    {legible : Prop} (hlegible : legible →
      es ≠ [] ∧ Table.find? fields p.name = some (.map (Table.ofList es))) :
    ∃ back, Gained c u step legible fields back p xs := by
  by_cases hne : es = []
  · subst hne
    refine ⟨[], fun scan _ => ?_, fun _ hcf => by simp [hc] at hcf, (fun _ _ hv => by cases hv),
      fun _ => rfl, fun T => absurd rfl (hlegible T).1⟩
    rw [hrun, Scan.absorb_none rfl]
    rfl
  · have hfind : Table.find? [(p.name, Value.map (Table.ofList es))] p.name =
        some (.map (Table.ofList es)) := if_pos rfl
    refine ⟨[(p.name, .map (Table.ofList es))], fun scan hlacks => ?_,
      fun _ hcf => by simp [hc] at hcf, fun _ v hv => ?_, fun hnot => absurd hp hnot,
      fun T => hfind.trans (hlegible T).2.symm⟩
    · rw [Scan.Lacks, if_pos hc] at hlacks
      rw [hrun, Scan.absorb, if_pos hc, captured, hfind, hlacks]
      exact congrArg (fun t => Except.ok { scan with extra := t })
        (Table.ofList_eq_self (Table.ascending_ofList es)).symm
    · obtain rfl := Option.some.inj (hfind.symm.trans hv)
      exact ⟨_, rfl, Table.ofList_ne_nil hne, Table.ascending_ofList _⟩

/-- **What a carrier holds comes back** from the nodes under the names of no property. -/
theorem partReturns_of_captured (W : c.WellFormed) (hplan : c.Plans .xml t o plan)
    (hc : p.carrier = true) (hp : p ∈ c.plannedProperties t)
    (htype : p.type = .collection .mapping r m) (hs : c.Forms .standard r shape)
    (hfound : Table.find? fields p.name = some (.map es)) (H : Captures s shape m (kept plan es) ps)
    (hk : ∀ e ∈ es, ':' ∉ e.1.toList) (h' : ∀ e ∈ es, Returns c s e.2) :
    PartReturns c s room n h t t plan fields p (ps.flatMap Node.ofPart) := by
  have hcar : plan.read.carrier = some ⟨p.name, shape, m⟩ :=
    (hplan.carrier _).2 ⟨p, hp, hc, r, shape, m, htype, hs, rfl⟩
  have hkept : ∀ e ∈ kept plan es, e ∈ es ∧ Table.contains plan.read.actions e.1 = false := by
    intro e he
    obtain ⟨he, hkey⟩ := List.mem_filter.1 he
    exact ⟨he, by simpa using hkey⟩
  have hfree : ∀ e ∈ kept plan es, boundAction plan e.1 .element = none := fun e he =>
    boundAction_of_not_contains (hkept e he).2 _
  have hkey : ∀ e ∈ kept plan es, ∀ q ∈ c.plannedProperties t, q.carrier = false →
      wireName .xml q ≠ e.1 := fun e he => (contains_actions_eq_false_iff hplan).1 (hkept e he).2
  have hk' : ∀ e ∈ kept plan es, ':' ∉ e.1.toList := fun e he => hk e (hkept e he).1
  have hret : ∀ e ∈ kept plan es, Returns c s e.2 := fun e he => h' e (hkept e he).1
  have hnesting : c.nesting true (.map es) = c.nestingEntries es := by
    rw [nesting, if_pos rfl, Nat.add_zero]
  -- all of what is legible is kept
  have hall : c.Legible n (.named h) (.object t fields) → kept plan es = es := by
    intro T
    refine List.filter_eq_self.2 fun e he => ?_
    rw [Bool.not_eq_true', contains_actions_eq_false_iff hplan]
    intro q hq hqc hqe
    exact T.canonical.keys p hp hc es hfound q hq hqc (List.mem_map.2 ⟨e, he, hqe.symm⟩)
  have hlegible : c.Legible n (.named h) (.object t fields) → ∀ e ∈ kept plan es, c.Legible m r e.2 ∧ e.2 ≠ .null := by
    intro T e he
    refine ⟨T.extra hp hc htype hfound (hkept e he).1 (hkey e he), fun hnull => ?_⟩
    have hmem := (hkept e he).1
    rw [← Prod.mk.eta (p := e), hnull] at hmem
    exact (T.objects h t fields .refl).2.captured p hp hc es hfound _ hmem
  constructor
  · intro hfit R
    have hle := hfit _ hfound
    rw [hc, hnesting] at hle
    obtain ⟨es', hrun, hself⟩ := exists_captured hcar hs H hfree hk' hret
      (fun e he => nestingEntries_le_iff.1 hle e.1 e.2 (hkept e he).1)
      fun e he => R.extra hp hc htype hfound (hkept e he).1 (hkey e he)
    refine exists_gained_of_captured hc hp hrun fun T => ?_
    -- a carrier that is legible holds something
    obtain ⟨es', he, hne, hasc⟩ := (T.filled W).carried p hp hc _ hfound
    obtain rfl := Value.map.inj he
    rw [hself (hlegible T), hall T, Table.ofList_eq_self hasc]
    exact ⟨hne, hfound⟩
  · intro T
    exact (tooDeep_captured hcar hs H hfree hk' hret fun e he => (hlegible T e he).1).1
  · intro T v hv hlt
    obtain rfl := Option.some.inj (hfound.symm.trans hv)
    rw [hc, hnesting] at hlt
    refine (tooDeep_captured hcar hs H hfree hk' hret fun e he => (hlegible T e he).1).2 ?_
    rw [hall T]
    by_contra hno
    push Not at hno
    exact absurd (nestingEntries_le_iff.2 fun k v hkv => hno (k, v) hkv) (Nat.not_le_of_lt hlt)

end Captured

/-! ### Properties of other types -/

/-- **What the type that is read does not have is passed.** -/
theorem partReturns_of_foreign {xs : List (String × Placement × Node)}
    (hp : p ∉ c.plannedProperties u) (hself : c.Legible n (.named h) (.object t fields) → False)
    (hcar : uplan.read.carrier = none) (hfree : ∀ x ∈ xs, boundAction uplan x.1 x.2.1 = none) :
    PartReturns c s room n h t u uplan fields p xs where
  read _ _ := by
    refine ⟨[], fun scan _ => ?_, fun hmem => absurd hmem hp, (fun _ _ hv => by cases hv),
      fun _ => rfl, fun T => (hself T).elim⟩
    rw [Scan.absorb_none rfl]
    induction xs with
    | nil => rfl
    | cons x xs ih =>
      obtain ⟨hx, hxs⟩ := List.forall_mem_cons.1 hfree
      rw [List.foldlM_cons, Tree.field_skipped hx hcar]
      exact ih hxs
  sound T := (hself T).elim
  deep T := (hself T).elim

end Parts

end Marshal
