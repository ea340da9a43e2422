import Marshal.Proofs.Markup.Scalars

/-!
# Collections in markup

The items of a sequence and the entries of a mapping come back one by one (`exists_mapM`,
`exists_entries`), and reading fails where one of them stands too deep, since nothing before it is
refused for another reason (`tooDeep_foldlM`, `tooDeep_mapM`). Nulls among the items leave no
element behind.
-/

namespace Marshal

open Catalogue Markup Draft

/-! ## Loops over what may stand too deep -/

section TooDeep

variable {α β γ : Type}

theorem TooDeep.bind {x : Except DecodeError α} (h : TooDeep x) (f : α → Except DecodeError β) :
    TooDeep (x >>= f) := by
  obtain ⟨field, rfl⟩ := h
  exact ⟨field, rfl⟩

theorem tooDeep_foldlM {f : β → α → Except DecodeError β} {as : List α}
    (h : ∀ a ∈ as, ∀ b, (∃ b', f b a = .ok b') ∨ TooDeep (f b a))
    (ha : ∃ a ∈ as, ∀ b, TooDeep (f b a)) (b : β) : TooDeep (as.foldlM f b) := by
  induction as generalizing b with
  | nil =>
    obtain ⟨a, ha, -⟩ := ha
    cases ha
  | cons a as ih =>
    obtain ⟨h₁, hs⟩ := List.forall_mem_cons.1 h
    rw [List.foldlM_cons]
    rcases h₁ b with ⟨b', hb⟩ | hdeep
    · rw [hb]
      refine ih hs ?_ b'
      obtain ⟨a', ha', hdeep⟩ := ha
      rcases List.mem_cons.1 ha' with rfl | ha'
      · obtain ⟨field, hfield⟩ := hdeep b
        rw [hb] at hfield
        cases hfield
      · exact ⟨a', ha', hdeep⟩
    · exact hdeep.bind _

theorem tooDeep_mapM {f : α → Except DecodeError β} {as : List α}
    (h : ∀ a ∈ as, (∃ b, f a = .ok b) ∨ TooDeep (f a)) (ha : ∃ a ∈ as, TooDeep (f a)) :
    TooDeep (as.mapM f) := by
  rw [List.mapM_eq_reverse_foldlM_cons, map_eq_pure_bind]
  refine (tooDeep_foldlM (fun a ha bs => ?_) ?_ []).bind _
  · rcases h a ha with ⟨b, hb⟩ | hdeep
    · exact .inl ⟨b :: bs, by rw [hb]; rfl⟩
    · exact .inr (hdeep.bind _)
  · obtain ⟨a, ha, hdeep⟩ := ha
    exact ⟨a, ha, fun _ => hdeep.bind _⟩

end TooDeep

/-! ## Nulls -/

/-- Only nulls are written as nulls. -/
theorem Draft.isNull_of_ofValue? {s : PlanSet} {shape : Shape} {n : Bool} {v : Value} {d : Draft}
    (h : ofValue? s shape n v = some d) : d.isNull = true ↔ v = .null := by
  cases ofValue?_eq_some_iff.1 h with
  | null => exact iff_of_true rfl rfl
  | primitive hv hd =>
    obtain ⟨t, ht, rfl, -⟩ := exists_of_ofPrimitive? hd
    exact iff_of_false Bool.false_ne_true hv
  | object hd =>
    obtain ⟨parts, rfl⟩ := exists_of_ofObject? hd
    exact iff_of_false Bool.false_ne_true (by simp)
  | enumeration | sequence | mapping => exact iff_of_false Bool.false_ne_true (by simp)

/-- **A value comes back** from every node that presents its draft. -/
def Returns (c : Catalogue) (s : PlanSet) (v : Value) : Prop :=
  ∀ (l : Layout) (r : Reference) (shape : Shape) (n : Bool) (d : Draft), c.Forms l r shape →
    shape.isFlattened = false → ofValue? s shape n v = some d → ∀ room name node, Presents node d →
      ComesBack c room n r v (Tree.value s room shape n name node)

variable {c : Catalogue} {s : PlanSet} {r : Reference} {shape : Shape} {m : Bool} {room : Nat}

/-! ## Items -/

/-- The elements of the items of a sequence. -/
def itemNodes (name : String) (ds : List Draft) : List Node :=
  (ds.filter fun d => !d.isNull).map fun d => .element name (ofDraft d)

section Items

variable {f : Node → Except DecodeError Value} {vs : List Value} {ds : List Draft}

theorem itemNodes_cons (name : String) (d : Draft) (ds : List Draft) :
    itemNodes name (d :: ds) =
      (if d.isNull then [] else [.element name (ofDraft d)]) ++ itemNodes name ds := by
  rw [itemNodes, List.filter_cons]
  cases d.isNull <;> rfl

/-- An item that is not null has an element. -/
theorem exists_mem_itemNodes (name : String)
    (H : List.Forall₂ (fun v d => ofValue? s shape m v = some d) vs ds) {v : Value} (hv : v ∈ vs)
    (hne : v ≠ .null) : ∃ node, node ∈ itemNodes name ds := by
  obtain ⟨d, hd, hvd⟩ := Outcome.forall₂_exists_left H hv
  have hn : d.isNull = false := Bool.eq_false_iff.2 fun hn => hne ((isNull_of_ofValue? hvd).1 hn)
  exact ⟨_, List.mem_map.2 ⟨d, List.mem_filter.2 ⟨hd, by simp [hn]⟩, rfl⟩⟩

/-- What is read for the items of a list. -/
theorem exists_mapM (name : String)
    (H : List.Forall₂ (fun v d => ofValue? s shape m v = some d) vs ds)
    (h : ∀ v ∈ vs, ∀ node d, Presents node d → ofValue? s shape m v = some d →
      ComesBack c room m r v (f node))
    (hfit : ∀ v ∈ vs, c.nesting false v ≤ room) (hread : ∀ v ∈ vs, c.Readable r v) :
    ∃ vs', (itemNodes name ds).mapM f = .ok vs' ∧ ((∃ v ∈ vs, v ≠ .null) → vs' ≠ []) ∧
      ((∀ v ∈ vs, c.Legible m r v ∧ v ≠ .null) → vs' = vs) := by
  induction H with
  | nil => exact ⟨[], rfl, by simp, fun _ => rfl⟩
  | @cons v d vs ds hd _ ih =>
    obtain ⟨hv, hvs⟩ := List.forall_mem_cons.1 h
    obtain ⟨hfit₁, hfits⟩ := List.forall_mem_cons.1 hfit
    obtain ⟨hread₁, hreads⟩ := List.forall_mem_cons.1 hread
    obtain ⟨vs', hrun, hsome, hself⟩ := ih hvs hfits hreads
    rw [itemNodes_cons]
    cases hn : d.isNull with
    | true =>
      have hnull := (isNull_of_ofValue? hd).1 hn
      refine ⟨vs', hrun, ?_, fun T => absurd hnull (T v List.mem_cons_self).2⟩
      rintro ⟨w, hw, hne⟩
      rcases List.mem_cons.1 hw with rfl | hw
      · exact absurd hnull hne
      · exact hsome ⟨w, hw, hne⟩
    | false =>
      obtain ⟨v', hv', hlegible⟩ := (hv (.element name (ofDraft d)) d (.element hn) hd).read hfit₁ hread₁
      refine ⟨v' :: vs', ?_, fun _ => List.cons_ne_nil _ _, fun T => ?_⟩
      · rw [if_neg Bool.false_ne_true, List.singleton_append, List.mapM_cons, hv', hrun]
        rfl
      · obtain ⟨⟨T₁, -⟩, Ts⟩ := List.forall_mem_cons.1 T
        rw [hlegible T₁, hself Ts]

/-- The items of a legible list come back or stand too deep. -/
theorem forall_itemNodes (name : String)
    (H : List.Forall₂ (fun v d => ofValue? s shape m v = some d) vs ds)
    (h : ∀ v ∈ vs, ∀ node d, Presents node d → ofValue? s shape m v = some d →
      ComesBack c room m r v (f node))
    (T : ∀ v ∈ vs, c.Legible m r v) :
    ∀ node ∈ itemNodes name ds, (∃ v', f node = .ok v') ∨ TooDeep (f node) := by
  intro node hnode
  obtain ⟨d, hd, rfl⟩ := List.mem_map.1 hnode
  obtain ⟨hd, hn⟩ := List.mem_filter.1 hd
  obtain ⟨v, hv, hvd⟩ := Outcome.forall₂_exists_right H hd
  have hback := h v hv (.element name (ofDraft d)) d (.element (by simpa using hn)) hvd
  rcases Nat.lt_or_ge room (c.nesting false v) with hlt | hle
  · exact .inr (hback.deep hlt (T v hv))
  · obtain ⟨v', hv', -⟩ := hback.read hle (T v hv).readable
    exact .inl ⟨v', hv'⟩

/-- An item that is legible and does not fit stands too deep. -/
theorem exists_tooDeep_itemNodes (name : String)
    (H : List.Forall₂ (fun v d => ofValue? s shape m v = some d) vs ds)
    (h : ∀ v ∈ vs, ∀ node d, Presents node d → ofValue? s shape m v = some d →
      ComesBack c room m r v (f node))
    (T : ∀ v ∈ vs, c.Legible m r v) (hlt : ∃ v ∈ vs, room < c.nesting false v) :
    ∃ node ∈ itemNodes name ds, TooDeep (f node) := by
  obtain ⟨v, hv, hlt⟩ := hlt
  obtain ⟨d, hd, hvd⟩ := Outcome.forall₂_exists_left H hv
  have hn : d.isNull = false := by
    refine Bool.eq_false_iff.2 fun hn => ?_
    rw [(isNull_of_ofValue? hvd).1 hn] at hlt
    exact absurd hlt (Nat.not_lt_zero _)
  refine ⟨.element name (ofDraft d), List.mem_map.2 ⟨d, List.mem_filter.2 ⟨hd, by simp [hn]⟩, rfl⟩, ?_⟩
  exact (h v hv _ d (.element hn) hvd).deep hlt (T v hv)

end Items

theorem exists_lt_nesting_of_list {vs : List Value} {b : Bool}
    (h : room + 1 < c.nesting b (.list vs)) : ∃ v ∈ vs, room < c.nesting false v := by
  by_contra hall
  push Not at hall
  exact absurd (nesting_list_le_iff.2 hall) (Nat.not_le_of_lt h)

/-- **A list comes back** from an element of its own. -/
theorem ComesBack.list {n : Bool} {name item : String} {node : Node} {vs : List Value} {d : Draft}
    (hs : c.Forms .standard r shape) (H : ∀ v ∈ vs, Returns c s v)
    (hd : ofValue? s (.sequence shape m (.wrapped item)) n (.list vs) = some d)
    (hnode : Presents node d) :
    ComesBack c room n (.collection .sequence r m) (.list vs)
      (Tree.value s room (.sequence shape m (.wrapped item)) n name node) := by
  rw [ofValue?.eq_5] at hd
  obtain ⟨ds, hds, rfl⟩ := Option.map_eq_some_iff.1 hd
  have hrel := ofItems?_eq_some_iff.1 hds
  obtain ⟨tag, rfl⟩ := hnode.exists_element rfl (by simp)
  have hitems : Tree.items (.wrapped item) (Node.element tag (ofDraft (.sequence (.wrapped item) ds))) =
      .ok (itemNodes item ds) := by
    show Except.ok ((ofDraft (.sequence (.wrapped item) ds)).children.map _) = _
    rw [ofDraft, Content.children, itemsOf_eq_map, List.map_map]
    rfl
  have hback : ∀ room, ∀ v ∈ vs, ∀ node d, Presents node d → ofValue? s shape m v = some d →
      ComesBack c room m r v (Tree.value s room shape m name node) := fun room v hv node d hp hvd =>
    H v hv _ r shape m d hs hs.not_flattened hvd room name node hp
  have hvalue : ∀ room, Tree.value s (room + 1) (.sequence shape m (.wrapped item)) n name
      (Node.element tag (ofDraft (.sequence (.wrapped item) ds))) =
        ((itemNodes item ds).mapM (Tree.value s room shape m name) >>= fun vs => pure (.list vs)) := by
    intro room
    rw [Tree.value_of_not_null rfl, Tree.innerOf, Tree.shaped, hitems]
    rfl
  constructor
  · intro hle hread
    obtain ⟨room, rfl⟩ := Nat.exists_eq_add_of_le' (Nat.le_trans (Nat.le_add_left 1 _) hle)
    obtain ⟨vs', hrun, -, hself⟩ := exists_mapM item hrel (hback room)
      (nesting_list_le_iff.1 hle) fun v hv => hread.item hv
    refine ⟨.list vs', ?_, fun T => ?_⟩
    · rw [hvalue, hrun]
      rfl
    · rw [hself fun v hv => ⟨T.item hv, ?_⟩]
      rintro rfl
      exact T.lists _ vs .refl hv
  · intro hlt T
    rcases room with _ | room
    · rw [Tree.value_of_not_null rfl]
      exact ⟨name, rfl⟩
    · rw [hvalue]
      exact (tooDeep_mapM (forall_itemNodes item hrel (hback room) fun v hv => T.item hv)
        (exists_tooDeep_itemNodes item hrel (hback room) (fun v hv => T.item hv)
          (exists_lt_nesting_of_list hlt))).bind _

/-! ## Entries -/

/-- The node that is read for the value of an entry. -/
def entryNode (d : Draft) : Node := if d.isNull then .missing else .element "value" (ofDraft d)

theorem presents_entryNode (d : Draft) : Presents (entryNode d) d := by
  rw [entryNode]
  cases hn : d.isNull with
  | true =>
    cases d with
    | null => exact .missing
    | _ => cases hn
  | false => exact .element hn

theorem ofEntry_entryContent (key : String) (value : Option Content) :
    Node.ofEntry ("entry", entryContent key value) =
      .ok (key, Node.ofValue (value.map fun c => ("value", c))) := by
  have hkey : localName "key" = "key" := by decide
  have hvalue : localName "value" = "value" := by decide
  have hne : ¬ "value" = "key" := by decide
  cases value with
  | none =>
    rw [Node.ofEntry, entryContent]
    simp [Content.isAlone, Content.children, Content.entryOf, hkey, Content.scalarText, Except.map,
      Bind.bind, Except.bind]
  | some d =>
    rw [Node.ofEntry, entryContent]
    simp [Content.isAlone, Content.children, Content.entryOf, hkey, hvalue, hne, Content.scalarText,
      Except.map, Bind.bind, Except.bind]

theorem entriesOf_eq_map (es : List (String × Draft)) :
    (entriesOf es).map Node.ofEntry = es.map fun e => .ok (e.1, entryNode e.2) := by
  induction es with
  | nil => rw [entriesOf]; rfl
  | cons e es ih =>
    obtain ⟨k, d⟩ := e
    rw [entriesOf, List.map_cons, ih, ofEntry_entryContent, List.map_cons, entryNode]
    cases d.isNull <;> rfl

section Entries

variable {f : String → Node → Except DecodeError Value} {es : List (String × Value)}
  {ds : List (String × Draft)}

/-- What is read for the entries of a map. -/
theorem exists_entries
    (H : List.Forall₂ (fun e d => d.1 = e.1 ∧ ofValue? s shape m e.2 = some d.2) es ds)
    (h : ∀ k v, (k, v) ∈ es → ∀ node d, Presents node d → ofValue? s shape m v = some d →
      ComesBack c room m r v (f k node))
    (hfit : ∀ k v, (k, v) ∈ es → c.nesting false v ≤ room)
    (hread : ∀ k v, (k, v) ∈ es → c.Readable r v) (table : List (String × Value)) :
    ∃ es', (ds.map fun e => .ok (e.1, entryNode e.2)).foldlM (Tree.entry f) table =
        .ok (es'.foldl (fun t e => Table.insert t e.1 e.2) table) ∧
      ((∀ k v, (k, v) ∈ es → c.Legible m r v) → es' = es) := by
  induction H generalizing table with
  | nil => exact ⟨[], rfl, fun _ => rfl⟩
  | @cons e d es ds hd _ ih =>
    obtain ⟨k, v⟩ := e
    obtain ⟨k', d⟩ := d
    obtain ⟨rfl, hd⟩ := hd
    obtain ⟨hv, hes⟩ := Table.forall_mem_cons.1 h
    obtain ⟨hfitv, hfits⟩ := Table.forall_mem_cons.1 hfit
    obtain ⟨hreadv, hreads⟩ := Table.forall_mem_cons.1 hread
    obtain ⟨v', hv', hlegible⟩ := (hv _ d (presents_entryNode d) hd).read hfitv hreadv
    obtain ⟨es', hrun, hself⟩ := ih hes hfits hreads (Table.insert table k' v')
    refine ⟨(k', v') :: es', ?_, fun T => ?_⟩
    · rw [List.map_cons, List.foldlM_cons, Tree.entry]
      refine Outcome.bind_eq_ok_iff.2 ⟨Table.insert table k' v', ?_, hrun⟩
      exact Outcome.bind_eq_ok_iff.2 ⟨(k', entryNode d), rfl,
        Outcome.bind_eq_ok_iff.2 ⟨v', hv', rfl⟩⟩
    · obtain ⟨hT, hTs⟩ := Table.forall_mem_cons.1 T
      rw [hlegible hT, hself hTs]

theorem tooDeep_entries
    (H : List.Forall₂ (fun e d => d.1 = e.1 ∧ ofValue? s shape m e.2 = some d.2) es ds)
    (h : ∀ k v, (k, v) ∈ es → ∀ node d, Presents node d → ofValue? s shape m v = some d →
      ComesBack c room m r v (f k node))
    (T : ∀ k v, (k, v) ∈ es → c.Legible m r v) (hlt : ∃ k v, (k, v) ∈ es ∧ room < c.nesting false v)
    (table : List (String × Value)) :
    TooDeep ((ds.map fun e => .ok (e.1, entryNode e.2)).foldlM (Tree.entry f) table) := by
  have hentry : ∀ {k v d}, (k, v) ∈ es → ofValue? s shape m v = some d → ∀ table,
      ((∃ table', Tree.entry f table (.ok (k, entryNode d)) = .ok table') ∨
        TooDeep (Tree.entry f table (.ok (k, entryNode d)))) ∧
      (room < c.nesting false v → TooDeep (Tree.entry f table (.ok (k, entryNode d)))) := by
    intro k v d hm hd table
    have hback := h k v hm _ d (presents_entryNode d) hd
    have hdeep : room < c.nesting false v → TooDeep (Tree.entry f table (.ok (k, entryNode d))) :=
      fun hlt => (hback.deep hlt (T k v hm)).bind _
    refine ⟨?_, hdeep⟩
    rcases Nat.lt_or_ge room (c.nesting false v) with hlt | hle
    · exact .inr (hdeep hlt)
    · obtain ⟨v', hv', -⟩ := hback.read hle (T k v hm).readable
      exact .inl ⟨_, Outcome.bind_eq_ok_iff.2 ⟨(k, entryNode d), rfl,
        Outcome.bind_eq_ok_iff.2 ⟨v', hv', rfl⟩⟩⟩
  refine tooDeep_foldlM (fun a ha table => ?_) ?_ table
  · obtain ⟨⟨k, d⟩, hd, rfl⟩ := List.mem_map.1 ha
    obtain ⟨⟨k', v⟩, hv, hk, hvd⟩ := Outcome.forall₂_exists_right H hd
    obtain rfl : k = k' := hk
    exact (hentry hv hvd table).1
  · obtain ⟨k, v, hv, hlt⟩ := hlt
    obtain ⟨⟨k', d⟩, hd, hk, hvd⟩ := Outcome.forall₂_exists_left H hv
    obtain rfl : k' = k := hk
    exact ⟨_, List.mem_map.2 ⟨_, hd, rfl⟩, fun table => (hentry hv hvd table).2 hlt⟩

end Entries

/-- **A map comes back** from its entries. -/
theorem ComesBack.map {n : Bool} {name : String} {node : Node} {es : List (String × Value)} {d : Draft}
    (hs : c.Forms .standard r shape) (H : ∀ k v, (k, v) ∈ es → Returns c s v)
    (hd : ofValue? s (.mapping shape m) n (.map es) = some d) (hnode : Presents node d) :
    ComesBack c room n (.collection .mapping r m) (.map es)
      (Tree.value s room (.mapping shape m) n name node) := by
  rw [ofValue?.eq_6] at hd
  obtain ⟨ds, hds, rfl⟩ := Option.map_eq_some_iff.1 hd
  have hrel := ofEntries?_eq_some_iff.1 hds
  obtain ⟨tag, rfl⟩ := hnode.exists_element rfl (by simp)
  have hentries : Tree.entries (Node.element tag (ofDraft (.mapping ds))) =
      .ok (ds.map fun e => .ok (e.1, entryNode e.2)) := by
    show Except.ok ((ofDraft (.mapping ds)).children.map Node.ofEntry) = _
    rw [ofDraft, Content.children, entriesOf_eq_map]
  have hback : ∀ room k v, (k, v) ∈ es → ∀ node d, Presents node d → ofValue? s shape m v = some d →
      ComesBack c room m r v (Tree.value s room shape m k node) := fun room k v hv node d hp hvd =>
    H k v hv _ r shape m d hs hs.not_flattened hvd room k node hp
  have hvalue : ∀ room, Tree.value s (room + 1) (.mapping shape m) n name
      (Node.element tag (ofDraft (.mapping ds))) =
        ((ds.map fun e => .ok (e.1, entryNode e.2)).foldlM
          (Tree.entry (Tree.value s room shape m)) [] >>= fun es => pure (.map es)) := by
    intro room
    rw [Tree.value_of_not_null rfl, Tree.innerOf, Tree.shaped, hentries]
    rfl
  have hnesting : c.nesting false (.map es) = c.nestingEntries es + 1 := by
    rw [nesting, if_neg Bool.false_ne_true]
  constructor
  · intro hle hread
    rw [hnesting] at hle
    obtain ⟨room, rfl⟩ := Nat.exists_eq_add_of_le' (Nat.le_trans (Nat.le_add_left 1 _) hle)
    obtain ⟨es', hrun, hself⟩ := exists_entries hrel (hback room)
      (nestingEntries_le_iff.1 (Nat.le_of_succ_le_succ hle)) (fun k v hv => hread.entry hv) []
    refine ⟨.map (Table.ofList es'), ?_, fun T => ?_⟩
    · rw [hvalue, hrun]
      rfl
    · cases T.conforms with
      | map hasc _ => rw [hself fun k v hv => T.entry hv, Table.ofList_eq_self hasc]
  · intro hlt T
    rw [hnesting] at hlt
    rcases room with _ | room
    · rw [Tree.value_of_not_null rfl]
      exact ⟨name, rfl⟩
    · rw [hvalue]
      refine (tooDeep_entries hrel (hback room) (fun k v hv => T.entry hv) ?_ []).bind _
      by_contra hall
      push Not at hall
      exact absurd (nestingEntries_le_iff.2 hall) (by omega)

end Marshal
