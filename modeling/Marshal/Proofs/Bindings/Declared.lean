import Marshal.Bindings.Build
import Marshal.Bindings.Print
import Marshal.Proofs.Catalogue.Hierarchies
import Marshal.Proofs.Catalogue.Sealing

/-!
# What is declared

Each declaration is that of an owner: a type, or a concrete root once more, for the record beside it.
`declarations_map_name` lists the declared names by their owners. Each declaration is begun by one
line of the file (`countP_declares`), and a name that is mentioned by a field or a variant is that of a
declaration exactly when it leads to no abstract type without one (`mentions_declared_iff`).
-/

namespace Marshal

/-! ## The hierarchies of a sealed catalogue -/

namespace Catalogue.Reachable

variable {c : Catalogue} {h r k : Handle} {w : String}

/-- The hierarchies of a sealed catalogue are as they should be. -/
theorem resolved (hc : c.Reachable) (hs : c.isSealed = true) : c.Resolved c.forest :=
  resolved_of_resolveForest (check_eq_ok_iff.1 (hc.check_eq_ok hs)).2.2.2.2

theorem mem_topDown_of_governs (hc : c.Reachable) (hs : c.isSealed = true) (g : c.Governs r h) :
    h ∈ c.topDown := by
  obtain ⟨d, o, ho, -⟩ := g.2.1
  have W := hc.wellFormed hs
  exact (mem_topDown_iff W.acyclic W.base).2 (exists_object?_of_root ho g.1)

/-- The hierarchy of a type is that of the type that governs it. -/
theorem hierarchyOf?_eq_some_iff (hc : c.Reachable) (hs : c.isSealed = true) {y : Hierarchy} :
    c.forest.hierarchyOf? h = some y ↔ y ∈ c.forest.hierarchies ∧ c.Governs y.root h := by
  rw [(hc.resolved hs).member]
  exact and_congr_right fun _ => ⟨And.right, fun g => ⟨hc.mem_topDown_of_governs hs g, g⟩⟩

/-- The roots are the types that govern themselves. -/
theorem exists_root_eq_iff (hc : c.Reachable) (hs : c.isSealed = true) :
    (∃ y ∈ c.forest.hierarchies, y.root = r) ↔ c.Governs r r := by
  rw [(hc.resolved hs).rooted]
  exact ⟨fun ⟨_, hd⟩ => ⟨.refl r, hd⟩, fun g => ⟨hc.mem_topDown_of_governs hs g, g.2⟩⟩

theorem exists_hierarchyOf? (hc : c.Reachable) (hs : c.isSealed = true) (g : c.Governs r h) :
    ∃ y, c.forest.hierarchyOf? h = some y ∧ y.root = r := by
  obtain ⟨y, hy, rfl⟩ := (hc.exists_root_eq_iff hs).2 g.self
  exact ⟨y, (hc.hierarchyOf?_eq_some_iff hs).2 ⟨hy, g⟩, rfl⟩

theorem hierarchyOf?_eq_none_iff (hc : c.Reachable) (hs : c.isSealed = true) :
    c.forest.hierarchyOf? h = none ↔ ∀ r, ¬ c.Governs r h := by
  constructor
  · intro hn r g
    obtain ⟨y, hy, -⟩ := hc.exists_hierarchyOf? hs g
    simp [hn] at hy
  · intro hn
    rw [Option.eq_none_iff_forall_ne_some]
    exact fun y hy => hn y.root ((hc.hierarchyOf?_eq_some_iff hs).1 hy).2

theorem withForest_forest (hs : c.isSealed = true) : c.withForest c.forest = c := by
  rw [withForest, ← hs]

theorem ascending_variantsFor (hc : c.Reachable) (hs : c.isSealed = true) (r : Handle) :
    Table.Ascending (c.variantsFor r) := by
  have h := ((hc.resolved hs).selected r).1
  rwa [withForest_forest hs] at h

/-- The words of a root are those of the types at and below it. -/
theorem mem_variantsFor (hc : c.Reachable) (hs : c.isSealed = true) (g : c.Governs r r) :
    (w, k) ∈ c.variantsFor r ↔ c.Inherits k r ∧ c.word? k = some w := by
  obtain ⟨y, hy, rfl⟩ := hc.exists_hierarchyOf? hs g
  have R := hc.resolved hs
  have hsel := (R.selected y.root).2 w k
  rw [withForest_forest hs] at hsel
  rw [← Table.find?_eq_some_iff (hc.ascending_variantsFor hs y.root), hsel]
  have hvar := R.variants y ((hc.hierarchyOf?_eq_some_iff hs).1 hy).1 w k
  simp only [hy, Option.some.injEq, exists_eq_left', hvar]
  exact ⟨And.left, fun hk => ⟨hk, hk.1⟩⟩

theorem mem_map_snd_variantsFor (hc : c.Reachable) (hs : c.isSealed = true) (g : c.Governs r r) :
    k ∈ (c.variantsFor r).map Prod.snd ↔ c.Governs r k ∧ (c.word? k).isSome = true := by
  rw [List.mem_map, Option.isSome_iff_exists]
  constructor
  · rintro ⟨v, hv, rfl⟩
    obtain ⟨hi, hw⟩ := (hc.mem_variantsFor hs g (w := v.1)).1 hv
    exact ⟨g.of_inherits hi, _, hw⟩
  · rintro ⟨gk, w, hw⟩
    exact ⟨(w, k), (hc.mem_variantsFor hs g).2 ⟨gk.1, hw⟩, rfl⟩

/-- No type is selected by two words. -/
theorem nodup_map_snd_variantsFor (hc : c.Reachable) (hs : c.isSealed = true) (g : c.Governs r r) :
    ((c.variantsFor r).map Prod.snd).Nodup := by
  have hpairs : (c.variantsFor r).Nodup := (hc.ascending_variantsFor hs r).nodup.of_map _
  refine hpairs.map_on fun v hv u hu hhandle => Prod.ext (Option.some.inj ?_) hhandle
  obtain ⟨-, hv⟩ := (hc.mem_variantsFor hs g (w := v.1)).1 hv
  obtain ⟨-, hu⟩ := (hc.mem_variantsFor hs g (w := u.1)).1 hu
  rw [← hv, ← hu, hhandle]

/-- A type with a word is in some hierarchy. -/
theorem exists_governs_of_word (hc : c.Reachable) (hs : c.isSealed = true) (hw : c.word? k = some w) :
    ∃ r, c.Governs r r ∧ c.Governs r k := by
  have W := hc.wellFormed hs
  obtain ⟨a, d, hi, hd⟩ := W.inside k w hw
  obtain ⟨r, g⟩ := exists_governs W.acyclic ⟨a, d, hi, hd⟩
  exact ⟨r, g.self, g⟩

end Catalogue.Reachable

namespace Bindings

/-! ## Lines that declare -/

/-- The lines that are written for some declarations, one after the other. They are not always the
lines that the text is cut into: a word of a catalogue may have a line break, and the line it is
written in is then still one line here. Lines that declare are counted among the written ones. -/
def fileLines (ds : List Declaration) : List String :=
  let body := ds.flatMap Declaration.lines
  ["//! Auto-generated by wireplan-gen. DO NOT EDIT.", ""] ++
    (if occursIn "BTreeMap<".toList (unlines body).toList then ["use std::collections::BTreeMap;", ""]
      else []) ++ body

theorem unlines_append (ls ms : List String) : unlines (ls ++ ms) = unlines ls ++ unlines ms := by
  simp [unlines, String.join_append]

theorem fileText_eq (ds : List Declaration) : fileText ds = unlines (fileLines ds) := by
  rw [fileLines, unlines_append]
  rfl

/-- Whether a line begins the declaration of a name. -/
def declares (name line : String) : Bool :=
  line == "pub enum " ++ name ++ " \x7b" || line == "pub struct " ++ name ++ " \x7b"

/-- The line that begins a declaration. -/
def Declaration.heading : Declaration → String
  | .words n _ _ => "pub enum " ++ n ++ " \x7b"
  | .variants n _ _ => "pub enum " ++ n ++ " \x7b"
  | .record n _ _ => "pub struct " ++ n ++ " \x7b"

theorem declares_heading {name : String} {d : Declaration} :
    declares name d.heading = true ↔ d.name = name := by
  cases d <;> simp [declares, Declaration.heading, Declaration.name, ← String.toList_inj]

/-- Whether a line begins with the letter that headings begin with. -/
def isFlush (line : String) : Bool := line.toList.head? == some 'p'

theorem isFlush_of_declares {name line : String} (h : declares name line = true) :
    isFlush line = true := by
  simp only [declares, Bool.or_eq_true, beq_iff_eq] at h
  rcases h with rfl | rfl <;> simp [isFlush]

/-- A declaration has one heading. -/
theorem lines_eq (d : Declaration) : ∃ before after, d.lines = before ++ d.heading :: after ∧
    (before ++ after).any isFlush = false := by
  cases d with
  | words n labels isOpen =>
    refine ⟨[_, _], _, rfl, ?_⟩
    cases isOpen <;> simp [isFlush]
  | variants n property vs =>
    refine ⟨[_, _], _, rfl, ?_⟩
    simp [isFlush]
  | record n title fields =>
    refine ⟨[_, _], _, rfl, ?_⟩
    simp [isFlush]

theorem countP_declares_lines (d : Declaration) (name : String) :
    d.lines.countP (declares name) = if d.name = name then 1 else 0 := by
  obtain ⟨before, after, hd, hrest⟩ := lines_eq d
  have hno : ∀ ls : List String, ls.any isFlush = false → ls.countP (declares name) = 0 :=
    fun ls h => List.countP_eq_zero.2 fun l hl hn =>
      List.any_eq_false.1 h l hl (isFlush_of_declares hn)
  rw [List.any_append, Bool.or_eq_false_iff] at hrest
  rw [hd, List.countP_append, List.countP_cons, hno _ hrest.1, hno _ hrest.2]
  simp only [declares_heading, zero_add]

/-- **A file declares a name as often as its declarations do**, each of them by one line. -/
theorem countP_declares (ds : List Declaration) (name : String) :
    (fileLines ds).countP (declares name) = (ds.map Declaration.name).count name := by
  have hfront : ∀ ls : List String, ls.countP (declares name) = 0 →
      ∀ ms : List String, (ls ++ ms).countP (declares name) = ms.countP (declares name) :=
    fun ls h ms => by rw [List.countP_append, h, zero_add]
  have hbody : (ds.flatMap Declaration.lines).countP (declares name) =
      (ds.map Declaration.name).count name := by
    induction ds with
    | nil => rfl
    | cons d ds ih =>
      rw [List.flatMap_cons, List.countP_append, ih, countP_declares_lines, List.map_cons,
        List.count_cons, add_comm]
      simp only [beq_iff_eq]
  rw [fileLines, List.append_assoc, hfront, hfront, hbody]
  · split <;> simp [declares, ← String.toList_inj]
  · simp [declares, ← String.toList_inj]

/-! ## Owners -/

/-- What a declaration is made for: a type, or a concrete root once more, for the record beside it. -/
structure Owner where
  type : Handle
  beside : Bool
deriving DecidableEq

variable (c : Catalogue)

/-- The name of the declaration of an owner. -/
def Owner.name (x : Owner) : String :=
  if x.beside then baseName (typeName c x.type) else typeName c x.type

/-- The owners of the declarations of an object type. -/
def objectOwners (h : Handle) (o : ObjectType) : List Owner :=
  if isRoot c h then if o.isAbstract then [⟨h, false⟩] else [⟨h, false⟩, ⟨h, true⟩]
  else if o.isAbstract then [] else [⟨h, false⟩]

/-- The owners of the declarations of a catalogue. -/
def owners : List Owner :=
  (c.enumerations.map fun h => ⟨h, false⟩) ++
    c.objects.flatMap fun h => ((c.object? h).map (objectOwners c h)).getD []

theorem objectDeclarations_map_name (h : Handle) (o : ObjectType) :
    (objectDeclarations c h o).map Declaration.name = (objectOwners c h o).map (Owner.name c) := by
  rw [objectDeclarations, objectOwners]
  split <;> split <;> rfl

/-- **The declared names** are those of the owners. -/
theorem declarations_map_name :
    (declarations c).map Declaration.name = (owners c).map (Owner.name c) := by
  rw [declarations, owners, List.map_append, List.map_append]
  congr 1
  · rw [List.map_map, List.map_filterMap]
    refine List.filterMap_eq_map_iff_forall_eq_some.2 fun h hh => ?_
    obtain ⟨e, he⟩ := Catalogue.mem_enumerations.1 hh
    rw [he]
    rfl
  · rw [List.map_flatMap, List.map_flatMap]
    refine List.flatMap_congr fun h _ => ?_
    rcases c.object? h with _ | o
    · rfl
    · exact objectDeclarations_map_name c h o

variable {c} {h k r : Handle} {o : ObjectType} {x : Owner} {n : String}

theorem mem_objectOwners : x ∈ objectOwners c h o ↔ x.type = h ∧
    if x.beside then isRoot c h = true ∧ o.isAbstract = false
    else isRoot c h = true ∨ o.isAbstract = false := by
  obtain ⟨t, b⟩ := x
  rw [objectOwners]
  cases b <;> cases isRoot c h <;> cases o.isAbstract <;> simp

theorem mem_getD_objectOwners : x ∈ ((c.object? h).map (objectOwners c h)).getD [] ↔
    ∃ o, c.object? h = some o ∧ x ∈ objectOwners c h o := by
  rcases c.object? h with _ | o <;> simp

/-- **Enumerations are declared, and those object types that are roots or concrete.** A root that is
both has a record beside it. -/
theorem mem_owners : x ∈ owners c ↔
    (x.beside = false ∧ ∃ e, c.kind? x.type = some (.enumeration e)) ∨
    ∃ o, c.object? x.type = some o ∧
      if x.beside then isRoot c x.type = true ∧ o.isAbstract = false
      else isRoot c x.type = true ∨ o.isAbstract = false := by
  obtain ⟨t, b⟩ := x
  simp only [owners, List.mem_append, List.mem_map, List.mem_flatMap, Catalogue.mem_enumerations,
    Catalogue.mem_objects, mem_getD_objectOwners, mem_objectOwners, Owner.mk.injEq]
  refine or_congr ⟨?_, ?_⟩ ⟨?_, ?_⟩
  · rintro ⟨_, he, rfl, rfl⟩
    exact ⟨rfl, he⟩
  · rintro ⟨rfl, he⟩
    exact ⟨t, he, rfl, rfl⟩
  · rintro ⟨_, -, o, ho, rfl, hx⟩
    exact ⟨o, ho, hx⟩
  · rintro ⟨o, ho, hx⟩
    exact ⟨t, ⟨o, ho⟩, o, ho, rfl, hx⟩

theorem nodup_owners (c : Catalogue) : (owners c).Nodup := by
  have hobjects : ∀ h, (((c.object? h).map (objectOwners c h)).getD []).Nodup := fun h => by
    rcases c.object? h with _ | o
    · exact List.nodup_nil
    · change (objectOwners c h o).Nodup
      rw [objectOwners]
      split <;> split <;> simp
  refine List.nodup_append.2 ⟨?_, List.nodup_flatMap.2 ⟨fun h _ => hobjects h, ?_⟩, ?_⟩
  · exact (Catalogue.nodup_enumerations c).map fun _ _ he => (Owner.mk.inj he).1
  · refine (Catalogue.nodup_objects c).imp fun {h k} hne x hx hx' => hne ?_
    obtain ⟨_, -, hx⟩ := mem_getD_objectOwners.1 hx
    obtain ⟨_, -, hx'⟩ := mem_getD_objectOwners.1 hx'
    exact (mem_objectOwners.1 hx).1.symm.trans (mem_objectOwners.1 hx').1
  · -- no type is both an enumeration and an object
    rintro x hx _ hy rfl
    obtain ⟨h, hh, rfl⟩ := List.mem_map.1 hx
    obtain ⟨k, -, hk⟩ := List.mem_flatMap.1 hy
    obtain ⟨o, ho, hk⟩ := mem_getD_objectOwners.1 hk
    obtain rfl : h = k := (mem_objectOwners.1 hk).1
    obtain ⟨e, he⟩ := Catalogue.mem_enumerations.1 hh
    simp [Catalogue.object?_eq_some_iff, he] at ho

theorem isRoot_iff (hc : c.Reachable) (hs : c.isSealed = true) :
    isRoot c r = true ↔ c.Governs r r := by
  rw [← hc.exists_root_eq_iff hs, isRoot]
  simp

/-! ## Names that are mentioned -/

/-- The names of declarations that stand in a declaration: those in the types of fields, and those of
the records that hold the fields of variants. -/
def Declaration.mentions : Declaration → List String
  | .words _ _ _ => []
  | .variants _ _ vs => vs.map Variant.payload
  | .record _ _ fields => fields.filterMap fun f => f.type.name?

/-- The owner of the declaration that is meant where a type is referred to. -/
def referred? (c : Catalogue) (k : Handle) : Option Owner :=
  match c.kind? k with
  | none => none
  | some (.primitive _) => none
  | some (.enumeration _) => some ⟨k, false⟩
  | some (.object o) => some ⟨standIn c k o, false⟩

/-- The type of a field, by the kind of what it holds. -/
theorem namedType_eq (hn : c.Carried) (b : Bool) (k : Handle) : namedType c b k =
    match c.kind? k with
    | none => .unit
    | some (.primitive p) => .primitive p
    | some (.enumeration _) => .named (typeName c k)
    | some (.object o) =>
      let name := typeName c (standIn c k o)
      if b then .named name else .boxed name := by
  rw [namedType, Catalogue.kind?_eq]
  rcases he : c.get? k with _ | ⟨name, _ | _ | _⟩
  · rfl
  · rfl
  · dsimp only [Option.map_some]
    rw [typeName, hn.nameOf_eq he]
  · rfl

theorem name?_namedType (hn : c.Carried) (b : Bool) (k : Handle) :
    (namedType c b k).name? = (referred? c k).map (Owner.name c) := by
  rw [namedType_eq hn, referred?]
  rcases c.kind? k with _ | _ | _ | o
  · rfl
  · rfl
  · rfl
  · cases b <;> rfl

/-- The name in the type of a field is that of the type its reference leads to. -/
theorem name?_fieldType (hn : c.Carried) {b : Bool} {q : Reference} :
    (fieldType c b q).name? = some n ↔
    ∃ k ∈ q.handles, ∃ x, referred? c k = some x ∧ x.name c = n := by
  induction q generalizing b with
  | named k =>
    simp only [fieldType, name?_namedType hn, Option.map_eq_some_iff, Reference.handles,
      List.mem_singleton, exists_eq_left]
  | collection arrangement element nullable ih =>
    rw [Reference.handles, ← @ih true]
    cases arrangement <;> cases nullable <;> rfl

theorem name?_propertyType (c : Catalogue) (p : Property) :
    (propertyType c p).name? = (fieldType c false p.type).name? := by
  rw [propertyType]
  cases p.required <;> cases p.nullable <;> rfl

theorem mem_mentions_recordOf (hn : c.Carried) {name : String} : n ∈ (recordOf c h name).mentions ↔
    ∃ p ∈ c.effectiveProperties h, ∃ k ∈ p.type.handles, ∃ x, referred? c k = some x ∧ x.name c = n := by
  simp only [recordOf, Declaration.mentions, List.mem_filterMap, List.mem_map, exists_exists_and_eq_and,
    name?_propertyType, name?_fieldType hn]

theorem mem_mentions_variantsOf : n ∈ (variantsOf c h).mentions ↔
    ∃ v ∈ c.variantsFor h, Owner.name c ⟨v.2, v.2 = h⟩ = n := by
  simp only [variantsOf, Declaration.mentions, List.mem_map, exists_exists_and_eq_and, Owner.name,
    decide_eq_true_eq]
  refine exists_congr fun v => and_congr_right fun _ => ?_
  split
  · rename_i hv
    rw [hv]
  · rfl

/-! ## What a name leads to -/

/-- The owners that a name can be given to: the types, and the roots once more. -/
def nameable (c : Catalogue) : List Owner :=
  ((c.enumerations ++ c.objects).map fun h => ⟨h, false⟩) ++
    (c.objects.filter (isRoot c)).map fun h => ⟨h, true⟩

/-- **The names of declarations tell the types apart**, and the types from the records beside roots. -/
def DistinctNames (c : Catalogue) : Prop := ((nameable c).map (Owner.name c)).Nodup

instance : Decidable (DistinctNames c) := inferInstanceAs (Decidable (List.Nodup _))

theorem mem_nameable : x ∈ nameable c ↔
    (x.beside = false ∧ ∃ e, c.kind? x.type = some (.enumeration e)) ∨
    ∃ o, c.object? x.type = some o ∧ (x.beside = true → isRoot c x.type = true) := by
  obtain ⟨t, b⟩ := x
  simp only [nameable, List.mem_append, List.mem_map, List.mem_filter, Catalogue.mem_enumerations,
    Catalogue.mem_objects, Owner.mk.injEq]
  cases b <;> simp

theorem DistinctNames.injOn (D : DistinctNames c) :
    Set.InjOn (Owner.name c) {x | x ∈ nameable c} :=
  fun _ hx _ hy => List.inj_on_of_nodup_map D hx hy

theorem mem_nameable_of_mem_owners (hx : x ∈ owners c) : x ∈ nameable c := by
  rcases mem_owners.1 hx with he | ⟨o, ho, hr⟩
  · exact mem_nameable.2 (.inl he)
  · refine mem_nameable.2 (.inr ⟨o, ho, fun hb => ?_⟩)
    rw [if_pos hb] at hr
    exact hr.1

/-- A name is declared once if its owner has a declaration, and else not at all. -/
theorem count_name (D : DistinctNames c) (hx : x ∈ nameable c) :
    (fileLines (declarations c)).countP (declares (x.name c)) = if x ∈ owners c then 1 else 0 := by
  have hinj := D.injOn
  have hnodup : ((owners c).map (Owner.name c)).Nodup :=
    (nodup_owners c).map_on fun y hy z hz =>
      hinj (mem_nameable_of_mem_owners hy) (mem_nameable_of_mem_owners hz)
  rw [countP_declares, declarations_map_name]
  split
  · rename_i hmem
    exact List.count_eq_one_of_mem hnodup (List.mem_map_of_mem hmem)
  · rename_i hmem
    refine List.count_eq_zero.2 fun hm => hmem ?_
    obtain ⟨y, hy, hn⟩ := List.mem_map.1 hm
    rwa [← hinj (mem_nameable_of_mem_owners hy) hx hn]

/-- Every abstract type that is referred to belongs to a hierarchy, and the types that words select are
concrete. -/
structure Complete (c : Catalogue) : Prop where
  inside : ∀ h o, c.object? h = some o → o.isAbstract = false → ∀ p ∈ c.effectiveProperties h,
    ∀ k ∈ p.type.handles, ∀ a, c.object? k = some a → a.isAbstract = true → ∃ r, c.Governs r k
  concrete : ∀ h o w, c.object? h = some o → c.word? h = some w → o.isAbstract = false

/-- What stands for a type of a hierarchy is declared: the type itself, or the root. -/
theorem mem_owners_standIn (hc : c.Reachable) (hs : c.isSealed = true) (ho : c.object? k = some o)
    (g : c.Governs r k) : ⟨standIn c k o, false⟩ ∈ owners c := by
  obtain ⟨y, hy, rfl⟩ := hc.exists_hierarchyOf? hs g
  simp only [standIn, hy]
  split
  · obtain ⟨d, o', ho', -⟩ := g.2.1
    exact mem_owners.2 (.inr ⟨o', ho', .inl ((isRoot_iff hc hs).2 g.self)⟩)
  · rename_i hconcrete
    simp only [Bool.or_eq_true, not_or, Bool.not_eq_true] at hconcrete
    exact mem_owners.2 (.inr ⟨o, ho, .inr hconcrete.1⟩)

/-- The declaration that is meant for a type is there, unless the type is abstract and outside of all
hierarchies. -/
theorem mem_owners_of_referred? (hc : c.Reachable) (hs : c.isSealed = true)
    (hx : referred? c k = some x) : x ∈ nameable c ∧ (x ∈ owners c ↔
      ∀ o, c.object? k = some o → o.isAbstract = true → ∃ r, c.Governs r k) := by
  unfold referred? at hx
  split at hx
  · cases hx
  · cases hx
  · rename_i e he
    cases hx
    have hmem : ⟨k, false⟩ ∈ owners c := mem_owners.2 (.inl ⟨rfl, e, he⟩)
    refine ⟨mem_nameable_of_mem_owners hmem, iff_of_true hmem fun o ho => ?_⟩
    simp [Catalogue.object?_eq_some_iff, he] at ho
  · rename_i o hk
    have ho := Catalogue.object?_eq_some_iff.2 hk
    cases hx
    by_cases hin : ∃ r, c.Governs r k
    · obtain ⟨r, g⟩ := hin
      have hmem := mem_owners_standIn hc hs ho g
      exact ⟨mem_nameable_of_mem_owners hmem, iff_of_true hmem fun _ _ _ => ⟨r, g⟩⟩
    · have hout := not_exists.1 hin
      have hroot : ¬ isRoot c k = true := fun hr => hout k ((isRoot_iff hc hs).1 hr)
      have hself : standIn c k o = k := by
        simp only [standIn, (hc.hierarchyOf?_eq_none_iff hs).2 hout]
      rw [hself]
      refine ⟨mem_nameable.2 (.inr ⟨o, ho, nofun⟩), ?_⟩
      simp [mem_owners, ho, hroot, hout, hk]

/-- The record of a type that a word of a root selects is there, unless the type is abstract. -/
theorem mem_owners_of_variant (hc : c.Reachable) (hs : c.isSealed = true) (g : c.Governs r r)
    {w : String} (hv : (w, k) ∈ c.variantsFor r) : ⟨k, k = r⟩ ∈ nameable c ∧
      (⟨k, k = r⟩ ∈ owners c ↔ ∀ o, c.object? k = some o → o.isAbstract = false) := by
  obtain ⟨hi, hw⟩ := (hc.mem_variantsFor hs g).1 hv
  obtain ⟨o, ho, -⟩ := Option.bind_eq_some_iff.1 hw
  by_cases hkr : k = r
  · subst hkr
    have hroot := (isRoot_iff hc hs).2 g
    simp [mem_nameable, mem_owners, ho, hroot]
  · have hroot : ¬ isRoot c k = true := fun hr =>
      hkr (((isRoot_iff hc hs).1 hr).unique (g.of_inherits hi))
    simp [mem_nameable, mem_owners, hkr, ho, Catalogue.object?_eq_some_iff.1 ho, hroot]

theorem mem_declarations {d : Declaration} : d ∈ declarations c ↔
    (∃ h e, c.kind? h = some (.enumeration e) ∧ wordsOf c h e = d) ∨
    ∃ h o, c.object? h = some o ∧ d ∈ objectDeclarations c h o := by
  rw [declarations, List.mem_append]
  refine or_congr ?_ ?_
  · simp only [List.mem_filterMap, Catalogue.mem_enumerations, Option.map_eq_some_iff,
      Option.bind_eq_some_iff]
    constructor
    · rintro ⟨h, ⟨e, he⟩, e', ⟨kind, hk, hke⟩, rfl⟩
      obtain rfl := Option.some.inj (he.symm.trans hk)
      cases hke
      exact ⟨h, e, he, rfl⟩
    · rintro ⟨h, e, he, rfl⟩
      exact ⟨h, ⟨e, he⟩, e, ⟨_, he, rfl⟩, rfl⟩
  · simp only [List.mem_flatMap, Catalogue.mem_objects]
    constructor
    · rintro ⟨h, ⟨o, ho⟩, hd⟩
      rw [ho] at hd
      exact ⟨h, o, ho, hd⟩
    · rintro ⟨h, o, ho, hd⟩
      refine ⟨h, ⟨o, ho⟩, ?_⟩
      rwa [ho]

/-- The declarations of an object type: an enumeration for a root, a record for a concrete type. -/
theorem mem_objectDeclarations {d : Declaration} : d ∈ objectDeclarations c h o ↔
    (isRoot c h = true ∧ d = variantsOf c h) ∨
    (o.isAbstract = false ∧ d = recordOf c h (Owner.name c ⟨h, isRoot c h⟩)) := by
  rw [objectDeclarations]
  cases hr : isRoot c h <;> cases o.isAbstract <;> simp [Owner.name]

/-- **Where a name is mentioned**: by the properties of a concrete type, and by the words of a root. -/
theorem exists_mentions_iff (hc : c.Reachable) (hs : c.isSealed = true) :
    (∃ d ∈ declarations c, n ∈ d.mentions) ↔
      (∃ h o, c.object? h = some o ∧ o.isAbstract = false ∧ ∃ p ∈ c.effectiveProperties h,
        ∃ k ∈ p.type.handles, ∃ x, referred? c k = some x ∧ x.name c = n) ∨
      ∃ r, c.Governs r r ∧ ∃ v ∈ c.variantsFor r, Owner.name c ⟨v.2, v.2 = r⟩ = n := by
  constructor
  · rintro ⟨d, hd, hn⟩
    rcases mem_declarations.1 hd with ⟨h, e, -, rfl⟩ | ⟨h, o, ho, hd⟩
    · simp [wordsOf, Declaration.mentions] at hn
    · rcases mem_objectDeclarations.1 hd with ⟨hr, rfl⟩ | ⟨hconcrete, rfl⟩
      · exact .inr ⟨h, (isRoot_iff hc hs).1 hr, mem_mentions_variantsOf.1 hn⟩
      · exact .inl ⟨h, o, ho, hconcrete, (mem_mentions_recordOf hc.carried).1 hn⟩
  · rintro (⟨h, o, ho, hconcrete, hn⟩ | ⟨r, g, hn⟩)
    · exact ⟨_, mem_declarations.2 (.inr ⟨h, o, ho, mem_objectDeclarations.2 (.inr ⟨hconcrete, rfl⟩)⟩),
        (mem_mentions_recordOf hc.carried).2 hn⟩
    · have hr := (isRoot_iff hc hs).2 g
      obtain ⟨d, o, ho, -⟩ := g.2.1
      exact ⟨_, mem_declarations.2 (.inr ⟨r, o, ho, mem_objectDeclarations.2 (.inl ⟨hr, rfl⟩)⟩),
        mem_mentions_variantsOf.2 hn⟩

/-- **Every name that is mentioned is declared once**, exactly when the declarations are complete: when
no concrete type has a property that refers to an abstract type outside of all hierarchies, and no
word selects an abstract type. No name is declared twice in any case. The lines counted are those that
are written; a word with a line break makes more of the text than these. -/
theorem mentions_declared_iff (hc : c.Reachable) (hs : c.isSealed = true) (D : DistinctNames c) :
    fileText (declarations c) = unlines (fileLines (declarations c)) ∧
    (∀ n, (fileLines (declarations c)).countP (declares n) ≤ 1) ∧
    ((∀ d ∈ declarations c, ∀ n ∈ d.mentions,
        (fileLines (declarations c)).countP (declares n) = 1) ↔ Complete c) := by
  have hcount : ∀ {x}, x ∈ nameable c →
      ((fileLines (declarations c)).countP (declares (x.name c)) = 1 ↔ x ∈ owners c) := fun hx => by
    rw [count_name D hx]
    split <;> simp_all
  have hmentions : ∀ {P : String → Prop}, (∀ d ∈ declarations c, ∀ n ∈ d.mentions, P n) ↔
      ∀ n, (∃ d ∈ declarations c, n ∈ d.mentions) → P n := fun {P} =>
    ⟨fun H n ⟨d, hd, hn⟩ => H d hd n hn, fun H d hd n hn => H n ⟨d, hd, hn⟩⟩
  refine ⟨fileText_eq _, fun n => ?_, ?_⟩
  · rw [countP_declares, declarations_map_name]
    exact List.nodup_iff_count_le_one.1 ((nodup_owners c).map_on fun y hy z hz =>
      D.injOn (mem_nameable_of_mem_owners hy) (mem_nameable_of_mem_owners hz)) n
  simp only [hmentions, exists_mentions_iff hc hs]
  constructor
  · intro H
    constructor
    · intro h o ho hconcrete p hp k hk a ha habs
      rcases hx : referred? c k with _ | x
      · simp [referred?, Catalogue.object?_eq_some_iff.1 ha] at hx
      · obtain ⟨hname, hiff⟩ := mem_owners_of_referred? hc hs hx
        exact hiff.1 ((hcount hname).1
          (H _ (.inl ⟨h, o, ho, hconcrete, p, hp, k, hk, x, hx, rfl⟩))) a ha habs
    · intro h o w ho hw
      obtain ⟨r, g, gh⟩ := hc.exists_governs_of_word hs hw
      have hv := (hc.mem_variantsFor hs g).2 ⟨gh.1, hw⟩
      obtain ⟨hname, hiff⟩ := mem_owners_of_variant hc hs g hv
      exact hiff.1 ((hcount hname).1 (H _ (.inr ⟨r, g, _, hv, rfl⟩))) o ho
  · rintro C n (⟨h, o, ho, hconcrete, p, hp, k, hk, x, hx, rfl⟩ | ⟨r, g, ⟨w, k⟩, hv, rfl⟩)
    · obtain ⟨hname, hiff⟩ := mem_owners_of_referred? hc hs hx
      exact (hcount hname).2 (hiff.2 (C.inside h o ho hconcrete p hp k hk))
    · obtain ⟨hname, hiff⟩ := mem_owners_of_variant hc hs g hv
      obtain ⟨-, hw⟩ := (hc.mem_variantsFor hs g).1 hv
      exact (hcount hname).2 (hiff.2 fun o ho => C.concrete k o w ho hw)

/-! ## Figures and forms -/

end Bindings

/-- Figures, of which there are plain ones and round ones in a color, and frames that hold them. -/
def Catalogue.gallery : Catalogue :=
  .ofEntities [
    ⟨"color", .enumeration ⟨[⟨"Red", "red"⟩, ⟨"DarkBlue", "dark-blue"⟩], true, true⟩⟩,
    ⟨"Figure", .object
      { properties := [{ name := "kind", wire := "kind", type := .named ⟨0⟩, required := true }]
        discriminator := some "kind"
        discriminatorValue := some "figure" }⟩,
    ⟨"RoundFigure", .object
      { base := some ⟨9⟩
        properties := [{ name := "color", wire := "color", type := .named ⟨8⟩ }]
        discriminatorValue := some "round" }⟩,
    ⟨"Frame", .object
      { properties := [
          { name := "main", wire := "main", type := .named ⟨9⟩, required := true },
          { name := "others", wire := "others", type := .collection .sequence (.named ⟨10⟩) true },
          { name := "paints", wire := "paints"
            type := .collection .mapping (.named ⟨8⟩) false }] }⟩]

/-- The gallery, sealed. -/
def Catalogue.sealedGallery : Catalogue :=
  gallery.withForest ⟨[⟨⟨9⟩, "kind", [("figure", ⟨9⟩), ("round", ⟨10⟩)]⟩],
    [(⟨9⟩, ⟨9⟩), (⟨10⟩, ⟨9⟩)]⟩

theorem Catalogue.reachable_sealedGallery : sealedGallery.Reachable :=
  .trySeal (c := gallery) (.ofEntities (by decide)) (by decide)

namespace Bindings

open Catalogue (sealedGallery)

/-- The names that the declarations of the gallery mention, `FigureBase` among them, are each declared
once. -/
theorem mentions_declared_gallery : sealedGallery.Reachable ∧ DistinctNames sealedGallery ∧
    (∀ d ∈ declarations sealedGallery, ∀ n ∈ d.mentions,
      (fileLines (declarations sealedGallery)).countP (declares n) = 1) ∧ Complete sealedGallery := by
  have hdistinct : DistinctNames sealedGallery := by decide
  have hnames : ∀ d ∈ declarations sealedGallery, ∀ n ∈ d.mentions,
      ((owners sealedGallery).map (Owner.name sealedGallery)).count n = 1 := by decide
  have hlines : ∀ d ∈ declarations sealedGallery, ∀ n ∈ d.mentions,
      (fileLines (declarations sealedGallery)).countP (declares n) = 1 := fun d hd n hn => by
    rw [countP_declares, declarations_map_name]
    exact hnames d hd n hn
  obtain ⟨-, -, hiff⟩ := mentions_declared_iff Catalogue.reachable_sealedGallery rfl hdistinct
  exact ⟨Catalogue.reachable_sealedGallery, hdistinct, hlines, hiff.1 hlines⟩

end Bindings

/-- Forms are abstract and in no hierarchy, and a page has one. A shape is abstract and has a word. -/
def Catalogue.forms : Catalogue :=
  .ofEntities [
    ⟨"Form", .object { isAbstract := true }⟩,
    ⟨"Page", .object
      { properties := [{ name := "form", wire := "form", type := .named ⟨8⟩ }] }⟩,
    ⟨"Shape", .object
      { properties := [{ name := "kind", wire := "kind", type := .named ⟨0⟩, required := true }]
        discriminator := some "kind"
        discriminatorValue := some "shape"
        isAbstract := true }⟩]

/-- The forms, sealed. -/
def Catalogue.sealedForms : Catalogue :=
  forms.withForest ⟨[⟨⟨10⟩, "kind", [("shape", ⟨10⟩)]⟩], [(⟨10⟩, ⟨10⟩)]⟩

theorem Catalogue.reachable_sealedForms : sealedForms.Reachable :=
  .trySeal (c := forms) (.ofEntities (by decide)) (by decide)

namespace Bindings

open Catalogue (sealedForms)

/-- The record of pages has a field of type `Box<Form>` and the enumeration of shapes a variant that
holds a `ShapeBase`, and neither is declared anywhere. -/
theorem not_mentions_declared : sealedForms.Reachable ∧ sealedForms.isSealed = true ∧
    DistinctNames sealedForms ∧
    (∃ d ∈ declarations sealedForms, "Form" ∈ d.mentions) ∧
    (∃ d ∈ declarations sealedForms, "ShapeBase" ∈ d.mentions) ∧
    ∀ n ∈ ["Form", "ShapeBase"], (fileLines (declarations sealedForms)).countP (declares n) = 0 := by
  refine ⟨Catalogue.reachable_sealedForms, rfl, by decide, by decide, by decide, fun n hn => ?_⟩
  rw [countP_declares, declarations_map_name]
  revert n
  decide

end Bindings

end Marshal
