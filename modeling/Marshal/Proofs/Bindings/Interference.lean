import Marshal.Proofs.Bindings.Inert

/-!
# Catalogues that differ in the texts of documents

Two catalogues of plain names with one mask have declarations that are alike: they differ in the texts
of documents and in the order of variants (`forall₂_alike_declarations`). So their files have the same
skeleton up to that order, and as many lines, if the texts break no line and ask for no import
(`lines_of_mask_eq`). What stands between line breaks in a word is a line of the file
(`mem_linesOf_of_word`).
-/

namespace Marshal

open Text (isPlain)
open Text.Words (pascal snake)

namespace Bindings

variable {c c' : Catalogue} {h k r : Handle} {o o' : ObjectType} {d d' : Declaration}

/-! ## Neat declarations -/

theorem isNameChar_of_isPlain {s : String} (hs : isPlain s = true) :
    ∀ ch ∈ s.toList, isNameChar ch = true := by
  obtain ⟨c, cs, hcs, hc, hrest⟩ := Text.exists_of_isPlain hs
  intro ch hch
  rw [hcs, List.mem_cons] at hch
  rcases hch with rfl | hch
  · simp [isNameChar, isIdentifierChar, Char.isAlphanum, hc]
  · rcases hrest ch hch with hnum | rfl
    · simp [isNameChar, isIdentifierChar, hnum]
    · rfl

theorem isNameChar_of_nameable (P : PlainNames c) {x : Owner} (hx : x ∈ nameable c) :
    ∀ ch ∈ (x.name c).toList, isNameChar ch = true := by
  have hplain := P.nameOf_nameable hx
  rw [Owner.name]
  split
  · exact (isName_of_isIdentifier (baseName_legal hplain).1).2
  · exact (isName_of_isIdentifier (isIdentifier_pascal hplain)).2

/-- The property that tells the types of a hierarchy apart has a plain name. -/
theorem isPlain_property (hc : c.Reachable) (hs : c.isSealed = true) (P : PlainNames c)
    (g : c.Governs r r) : ∃ y, c.forest.hierarchyOf? r = some y ∧ isPlain y.property = true := by
  obtain ⟨y, hy, rfl⟩ := hc.exists_hierarchyOf? hs g
  have W := hc.wellFormed hs
  have hnames := (hc.resolved hs).property y ((hc.hierarchyOf?_eq_some_iff hs).1 hy).1
  obtain ⟨p, hp, hname, -⟩ := W.discriminable _ _ hnames g.2.2
  exact ⟨y, hy, hname ▸ P.property W.acyclic hp⟩

/-- **The declarations of a catalogue of plain names are neat.** -/
theorem isNeat_declarations (hc : c.Reachable) (hs : c.isSealed = true) (P : PlainNames c) :
    ∀ d ∈ declarations c, d.IsNeat := by
  have hpascal : ∀ {s}, isPlain s = true → ∀ ch ∈ (pascal s).toList, isNameChar ch = true :=
    fun hs => (isName_of_isIdentifier (isIdentifier_pascal hs)).2
  rw [forall_declarations hc hs]
  refine ⟨fun h e he => ?_, fun r g => ?_, fun h o ho hconcrete => ?_⟩
  · simp only [Declaration.IsNeat, wordsOf, Declaration.names, List.forall_mem_cons, List.map_map,
      List.forall_mem_map]
    exact ⟨hpascal (P.nameOf he), fun m hm => hpascal (P.member he hm)⟩
  · obtain ⟨d, o, ho, -⟩ := g.2.1
    obtain ⟨y, hy, hproperty⟩ := isPlain_property hc hs P g
    simp only [Declaration.IsNeat, variantsOf, Declaration.names, List.forall_mem_cons,
      List.forall_mem_flatMap, List.forall_mem_map, hy]
    refine ⟨hpascal (P.nameOf_object ho), isNameChar_of_isPlain hproperty, fun v hv => ?_⟩
    obtain ⟨-, -, o', hv'⟩ := exists_of_mem_variantsFor hc hs g hv
    refine ⟨hpascal (P.nameOf_object hv'), ?_, by simp⟩
    split
    · exact (isName_of_isIdentifier (baseName_legal (P.nameOf_object ho)).1).2
    · exact hpascal (P.nameOf_object hv')
  · simp only [Declaration.IsNeat, recordOf, Declaration.names, List.forall_mem_cons,
      List.forall_mem_flatMap, List.forall_mem_map, Option.mem_toList]
    refine ⟨isNameChar_of_nameable P (mem_nameable.2 (.inr ⟨o, ho, id⟩)),
      isNameChar_of_isPlain (P.nameOf_object ho), fun p hp => ⟨?_, fun n hn => ?_⟩⟩
    · exact (isName_fieldName (P.property (hc.wellFormed hs).acyclic hp)).2
    · rw [name?_propertyType, name?_fieldType hc.carried] at hn
      obtain ⟨k, -, x, hx, rfl⟩ := hn
      exact isNameChar_of_nameable P (mem_owners_of_referred? hc hs hx).1

/-! ## Declarations of catalogues with one mask -/

section Mask

variable (hc : c.Reachable) (hs : c.isSealed = true) (hc' : c'.Reachable) (hs' : c'.isSealed = true)
  (hm : c.mask = c'.mask)

include hm

theorem governs_congr : c.Governs = c'.Governs := by
  rw [← c.governs_mask, hm, c'.governs_mask]

theorem typeName_congr : typeName c = typeName c' := by
  funext h
  rw [typeName, ← c.nameOf_mask, hm, c'.nameOf_mask, typeName]

theorem kind?_congr (h : Handle) : (c.kind? h).map Kind.mask = (c'.kind? h).map Kind.mask := by
  rw [← c.kind?_mask, hm, c'.kind?_mask]

theorem object?_congr (h : Handle) :
    (c.object? h).map ObjectType.mask = (c'.object? h).map ObjectType.mask := by
  rw [← c.object?_mask, hm, c'.object?_mask]

include hc hs hc' hs'

theorem isRoot_congr : isRoot c = isRoot c' := by
  funext r
  rw [Bool.eq_iff_iff, isRoot_iff hc hs, isRoot_iff hc' hs', governs_congr hm]

theorem standIn_congr (ha : o.isAbstract = o'.isAbstract) : standIn c h o = standIn c' h o' := by
  by_cases hin : ∃ r, c.Governs r h
  · obtain ⟨r, g⟩ := hin
    obtain ⟨y, hy, hroot⟩ := hc.exists_hierarchyOf? hs g
    obtain ⟨y', hy', hroot'⟩ := hc'.exists_hierarchyOf? hs' (governs_congr hm ▸ g)
    simp only [standIn, hy, hy', ha, isRoot_congr hc hs hc' hs' hm, hroot, hroot']
  · have hout := not_exists.1 hin
    have hn := (hc.hierarchyOf?_eq_none_iff hs).2 hout
    have hn' := (hc'.hierarchyOf?_eq_none_iff hs').2 (governs_congr hm ▸ hout)
    simp only [standIn, hn, hn']

theorem namedType_congr (b : Bool) (k : Handle) : namedType c b k = namedType c' b k := by
  have hkind := kind?_congr hm k
  rw [namedType_eq hc.carried, namedType_eq hc'.carried, typeName_congr hm]
  rcases hk : c.kind? k with _ | _ | _ | o <;> rcases hk' : c'.kind? k with _ | _ | _ | o' <;>
    simp only [hk, hk', Option.map_none, Option.map_some, Kind.mask, Option.some.injEq, reduceCtorEq,
      Kind.primitive.injEq, Kind.object.injEq] at hkind
  · rfl
  · rw [hkind]
  · rfl
  · have habstract : o.mask.isAbstract = o'.mask.isAbstract := by rw [hkind]
    have hstandIn : standIn c k o = standIn c' k o' := standIn_congr hc hs hc' hs' hm habstract
    simp only [hstandIn]

theorem fieldType_congr (b : Bool) (q : Reference) : fieldType c b q = fieldType c' b q := by
  induction q generalizing b with
  | named k => exact namedType_congr hc hs hc' hs' hm b k
  | collection arrangement element nullable ih => simp only [fieldType, ih]

theorem blank_recordOf_congr (h : Handle) (name : String) :
    (recordOf c h name).blank = (recordOf c' h name).blank := by
  have hproperties : ∀ {c : Catalogue}, (recordOf c h name).blank =
      .record name (c.mask.nameOf h) ((c.mask.effectiveProperties h).map fun p =>
        ⟨fieldName p.name, "", propertyType c p⟩) := fun {c} => by
    rw [c.nameOf_mask, c.effectiveProperties_mask, List.map_map, recordOf, Declaration.blank,
      List.map_map]
    rfl
  have htype : propertyType c = propertyType c' := by
    funext p
    rw [propertyType, fieldType_congr hc hs hc' hs' hm, propertyType]
  rw [hproperties, hproperties, hm, htype]

omit hc hs hc' hs' in
theorem blank_wordsOf_congr (h : Handle) {e e' : Enumeration} (he : e.mask = e'.mask) :
    (wordsOf c h e).blank = (wordsOf c' h e').blank := by
  have hmembers : ∀ {c : Catalogue} {e : Enumeration}, (wordsOf c h e).blank =
      .words (typeName c h) (e.mask.members.map fun m => ⟨pascal m.name, ""⟩) e.mask.isOpen :=
    fun {c e} => by
      rw [wordsOf, Declaration.blank, Enumeration.mask, List.map_map, List.map_map]
      rfl
  rw [hmembers, hmembers, he, typeName_congr hm]

end Mask

/-- Declarations that differ in the texts of documents only, and in the order of variants. -/
inductive Alike : Declaration → Declaration → Prop
  | blank {d d' : Declaration} : d.blank = d'.blank → Alike d d'
  | variants {n property : String} {vs us : List Variant} :
    (vs.map fun v => ({ v with word := "" } : Variant)).Perm
      (us.map fun v => { v with word := "" }) →
    Alike (.variants n property vs) (.variants n property us)

/-- **The types that words select are the same**, in some order. -/
theorem alike_variantsOf (hc : c.Reachable) (hs : c.isSealed = true) (hc' : c'.Reachable)
    (hs' : c'.isSealed = true) (hm : c.mask = c'.mask) (g : c.Governs r r) :
    Alike (variantsOf c r) (variantsOf c' r) := by
  have g' : c'.Governs r r := governs_congr hm ▸ g
  have hproperty : ∀ {c : Catalogue}, c.Reachable → c.isSealed = true → c.Governs r r →
      c.Names r (((c.forest.hierarchyOf? r).map Hierarchy.property).getD "") := fun hc hs g => by
    obtain ⟨y, hy, rfl⟩ := hc.exists_hierarchyOf? hs g
    rw [hy]
    exact (hc.resolved hs).property y ((hc.hierarchyOf?_eq_some_iff hs).1 hy).1
  have hnames : c.Names = c'.Names := by rw [← c.names_mask, hm, c'.names_mask]
  have hselected : ((c.variantsFor r).map Prod.snd).Perm ((c'.variantsFor r).map Prod.snd) := by
    rw [List.perm_ext_iff_of_nodup (hc.nodup_map_snd_variantsFor hs g)
      (hc'.nodup_map_snd_variantsFor hs' g')]
    intro k
    rw [hc.mem_map_snd_variantsFor hs g, hc'.mem_map_snd_variantsFor hs' g', governs_congr hm,
      ← c.isSome_word?_mask, hm, c'.isSome_word?_mask]
  have heq := (hproperty hc hs g).unique (hnames ▸ hproperty hc' hs' g')
  rw [variantsOf, variantsOf, heq, typeName_congr hm]
  refine .variants ?_
  have hblank := hselected.map fun k =>
    ({ name := typeName c' k, word := ""
       payload := if k = r then baseName (typeName c' r) else typeName c' k } : Variant)
  rw [List.map_map, List.map_map] at hblank ⊢
  exact hblank

/-- Declarations of an object type whose texts are erased. -/
theorem alike_objectDeclarations (hc : c.Reachable) (hs : c.isSealed = true) (hc' : c'.Reachable)
    (hs' : c'.isSealed = true) (hm : c.mask = c'.mask) (ha : o.isAbstract = o'.isAbstract) :
    List.Forall₂ Alike (objectDeclarations c h o) (objectDeclarations c' h o') := by
  have hrecord := fun name => Alike.blank (blank_recordOf_congr hc hs hc' hs' hm h name)
  rw [objectDeclarations, objectDeclarations, isRoot_congr hc hs hc' hs' hm, ha, typeName_congr hm]
  split
  · rename_i hroot
    have hvariants := alike_variantsOf hc hs hc' hs' hm
      (governs_congr hm ▸ (isRoot_iff hc' hs').1 hroot)
    split
    · exact .cons hvariants .nil
    · exact .cons hvariants (.cons (hrecord _) .nil)
  · split
    · exact .nil
    · exact .cons (hrecord _) .nil

/-- **Catalogues with one mask have declarations that are alike.** -/
theorem forall₂_alike_declarations (hc : c.Reachable) (hs : c.isSealed = true) (hc' : c'.Reachable)
    (hs' : c'.isSealed = true) (hm : c.mask = c'.mask) :
    List.Forall₂ Alike (declarations c) (declarations c') := by
  rw [declarations, declarations, ← c.enumerations_mask, ← c.objects_mask, hm, c'.enumerations_mask,
    c'.objects_mask, List.filterMap_eq_flatMap_toList, List.filterMap_eq_flatMap_toList]
  refine List.rel_append (forall₂_flatMap fun h _ => ?_) (forall₂_flatMap fun h _ => ?_)
  · have hkind := kind?_congr hm h
    rcases hk : c.kind? h with _ | _ | e | _ <;> rcases hk' : c'.kind? h with _ | _ | e' | _ <;>
      simp only [hk, hk', Option.map_none, Option.map_some, Kind.mask, Option.some.injEq, reduceCtorEq,
        Kind.enumeration.injEq] at hkind
    · exact .nil
    · exact .nil
    · exact .cons (.blank (blank_wordsOf_congr hm h hkind)) .nil
    · exact .nil
  · have hobject := object?_congr hm h
    rcases ho : c.object? h with _ | o <;> rcases ho' : c'.object? h with _ | o' <;>
      simp only [ho, ho', Option.map_none, Option.map_some, Option.some.injEq, reduceCtorEq] at hobject
    · exact .nil
    · have habstract : o.mask.isAbstract = o'.mask.isAbstract := by rw [hobject]
      exact alike_objectDeclarations hc hs hc' hs' hm habstract

/-! ## Lines up to the order of variants -/

/-- The line of a variant. -/
def Variant.line (v : Variant) : String := "    " ++ v.name ++ "(" ++ v.payload ++ "),"

/-- Lines that are the same up to the order of those of variants, between the heading of an enumeration
and its end. -/
inductive UpToVariants : List String → List String → Prop
  | nil : UpToVariants [] []
  | cons (l : String) {ls ms : List String} : UpToVariants ls ms → UpToVariants (l :: ls) (l :: ms)
  | variants (name : String) {vs us : List Variant} {ls ms : List String} : vs.Perm us →
    UpToVariants ls ms →
    UpToVariants (("pub enum " ++ name ++ " \x7b") :: (vs.map Variant.line ++ "\x7d" :: ls))
      (("pub enum " ++ name ++ " \x7b") :: (us.map Variant.line ++ "\x7d" :: ms))

namespace UpToVariants

theorem refl (ls : List String) : UpToVariants ls ls := by
  induction ls with
  | nil => exact .nil
  | cons l ls ih => exact .cons l ih

theorem append {ls ms ls' ms' : List String} (h : UpToVariants ls ms) (h' : UpToVariants ls' ms') :
    UpToVariants (ls ++ ls') (ms ++ ms') := by
  induction h with
  | nil => exact h'
  | cons l _ ih => exact .cons l ih
  | variants name hperm _ ih => simpa using UpToVariants.variants name hperm ih

theorem flatMap {ds ds' : List Declaration} {f : Declaration → List String}
    (h : List.Forall₂ (fun d d' => UpToVariants (f d) (f d')) ds ds') :
    UpToVariants (ds.flatMap f) (ds'.flatMap f) := by
  induction h with
  | nil => exact .nil
  | cons hd _ ih =>
    rw [List.flatMap_cons, List.flatMap_cons]
    exact hd.append ih

end UpToVariants

theorem skeleton_singleton {l : String} (hcomment : isComment l = false) (hquote : '"' ∉ l.toList) :
    skeleton [l] = [l] := by
  simp [skeleton, hcomment, hollow_of_not_mem hquote]

/-- The line of a variant is no comment: what comes after the spaces is of the name, or the bracket. -/
theorem Variant.isComment_line {v : Variant} (h : ∀ x ∈ v.name.toList, x ≠ ' ' ∧ x ≠ '/') :
    isComment v.line = false := by
  rcases hname : v.name.toList with _ | ⟨x, cs⟩
  · exact Twin.isComment_eq_false (x := '(') (by decide) (by decide) (v.payload.toList ++ "),".toList)
      (by simp [Variant.line, hname])
  · obtain ⟨hblank, hslash⟩ := h x (by simp [hname])
    exact Twin.isComment_eq_false (x := x) hblank hslash (cs ++ '(' :: v.payload.toList ++ "),".toList)
      (by simp [Variant.line, hname])

/-- Of a variant the skeleton has its line. -/
theorem skeleton_variant {n property : String} {vs : List Variant}
    (hd : (Declaration.variants n property vs).IsNeat) {v : Variant} (hv : v ∈ vs) :
    skeleton ["    /// \x60" ++ property ++ "\x60 = \x60" ++ v.word ++ "\x60.", v.line] = [v.line] := by
  have hmem : v.name ∈ (Declaration.variants n property vs).names ∧
      v.payload ∈ (Declaration.variants n property vs).names := by
    simp only [Declaration.names, List.mem_cons, List.mem_flatMap]
    exact ⟨.inr (.inr ⟨v, hv, by simp⟩), .inr (.inr ⟨v, hv, by simp⟩)⟩
  have hcomment : isComment v.line = false := Variant.isComment_line fun x hx =>
    ⟨fun h => hd.not_mem hmem.1 rfl (h ▸ hx), fun h => hd.not_mem hmem.1 rfl (h ▸ hx)⟩
  rw [skeleton_cons_of_isComment (Twin.isComment_of (" \x60".toList ++ property.toList ++
    "\x60 = \x60".toList ++ v.word.toList ++ "\x60.".toList) (by simp))]
  exact skeleton_singleton hcomment (by simp [Variant.line, hd.not_mem hmem.1 (c := '"') rfl,
    hd.not_mem hmem.2 (c := '"') rfl])

theorem skeleton_variantsLines {n property : String} {vs : List Variant}
    (hd : (Declaration.variants n property vs).IsNeat) :
    skeleton (Declaration.variants n property vs).lines = "#[derive(Debug, Clone, PartialEq)]" ::
      ("pub enum " ++ n ++ " \x7b") :: (vs.map Variant.line ++ ["\x7d", ""]) := by
  have hn : '"' ∉ n.toList := hd.not_mem (by simp [Declaration.names]) rfl
  have hlines : skeleton (vs.flatMap fun v => ["    /// \x60" ++ property ++ "\x60 = \x60" ++ v.word ++
      "\x60.", Variant.line v]) = vs.map Variant.line := by
    rw [skeleton_flatMap, List.flatMap_congr fun v hv => skeleton_variant hd hv]
    exact List.flatMap_pure_eq_map Variant.line vs
  have hderive : skeleton ["#[derive(Debug, Clone, PartialEq)]"] =
      ["#[derive(Debug, Clone, PartialEq)]"] := skeleton_singleton rfl (by simp)
  have hheading : skeleton ["pub enum " ++ n ++ " \x7b"] = ["pub enum " ++ n ++ " \x7b"] :=
    skeleton_singleton (by simp [isComment, List.isPrefixOf]) (by simp [hn])
  have hend : skeleton ["\x7d", ""] = ["\x7d", ""] := by decide
  have hparts : (Declaration.variants n property vs).lines =
      ("/// " ++ n ++ " variants, selected by \x60" ++ property ++ "\x60.") ::
        (["#[derive(Debug, Clone, PartialEq)]"] ++ ["pub enum " ++ n ++ " \x7b"] ++
          (vs.flatMap fun v => ["    /// \x60" ++ property ++ "\x60 = \x60" ++ v.word ++ "\x60.",
            Variant.line v]) ++ ["\x7d", ""]) := rfl
  rw [hparts, skeleton_cons_of_isComment (by simp [isComment]), skeleton_append, skeleton_append,
    skeleton_append, hderive, hheading, hlines, hend]
  simp

/-- **The skeletons of declarations that are alike** are the same up to the order of variants. -/
theorem Alike.upToVariants (ha : Alike d d') (hd : d.IsNeat) (hd' : d'.IsNeat) :
    UpToVariants (skeleton d.lines) (skeleton d'.lines) := by
  cases ha with
  | blank h =>
    rw [Twin.skeleton_eq (forall₂_twin_lines hd), Twin.skeleton_eq (forall₂_twin_lines hd'), h]
    exact .refl _
  | @variants n property vs us hperm =>
    have hline : ∀ vs : List Variant, vs.map Variant.line =
        (vs.map fun v => ({ v with word := "" } : Variant)).map Variant.line := fun vs => by
      rw [List.map_map]
      rfl
    rw [skeleton_variantsLines hd, skeleton_variantsLines hd', hline vs, hline us]
    exact .cons _ (.variants n hperm (.refl _))

theorem Alike.perm_lines_blank (ha : Alike d d') : d.blank.lines.Perm d'.blank.lines := by
  cases ha with
  | blank h => rw [h]
  | variants hperm => exact ((hperm.flatMap_right _).append_left _).append_right _

theorem Alike.length_lines (ha : Alike d d') (hd : d.IsNeat) (hd' : d'.IsNeat) :
    d.lines.length = d'.lines.length := by
  rw [(forall₂_twin_lines hd).length_eq, (forall₂_twin_lines hd').length_eq,
    ha.perm_lines_blank.length_eq]

/-! ## The import of maps -/

/-- Whether a type is that of a mapping, or of something that holds mappings. -/
def FieldType.hasMapping : FieldType → Bool
  | .mapping _ => true
  | .option t => t.hasMapping
  | .sequence t => t.hasMapping
  | _ => false

/-- The types of the fields of a declaration. -/
def Declaration.fieldTypes : Declaration → List FieldType
  | .record _ _ fields => fields.map Field.type
  | _ => []

theorem mapMark_infix_text {t : FieldType} (ht : t.hasMapping = true) :
    mapMark <:+: t.text.toList := by
  have hwithin : ∀ {u : String} (front back : String), mapMark <:+: u.toList →
      mapMark <:+: (front ++ u ++ back).toList := fun front back hu => by
    rw [String.toList_append, String.toList_append]
    exact hu.trans (List.infix_append _ _ _)
  induction t with
  | unit => cases ht
  | primitive => cases ht
  | named => cases ht
  | boxed => cases ht
  | option t ih =>
    change mapMark <:+: ("Option<" ++ t.text ++ ">").toList
    exact hwithin "Option<" ">" (ih ht)
  | sequence t ih =>
    change mapMark <:+: ("Vec<" ++ t.text ++ ">").toList
    exact hwithin "Vec<" ">" (ih ht)
  | mapping t =>
    change mapMark <:+: ("BTreeMap<String, " ++ t.text ++ ">").toList
    have hfront : ("BTreeMap<String, " ++ t.text ++ ">").toList =
        mapMark ++ ("String, ".toList ++ t.text.toList ++ ">".toList) := by simp [mapMark]
    rw [hfront]
    exact (List.prefix_append _ _).isInfix

theorem fieldTypes_blank (d : Declaration) : d.blank.fieldTypes = d.fieldTypes := by
  cases d with
  | record n title fields => simp [Declaration.blank, Declaration.fieldTypes]
  | _ => rfl

theorem Alike.fieldTypes_eq (ha : Alike d d') : d.fieldTypes = d'.fieldTypes := by
  cases ha with
  | blank h => rw [← fieldTypes_blank d, h, fieldTypes_blank]
  | variants => rfl

/-- Some line of a declaration asks for the import of maps. -/
def Declaration.asks (d : Declaration) : Prop := ∃ l ∈ d.lines, mapMark <:+: l.toList

theorem asks_of_hasMapping (h : ∃ t ∈ d.fieldTypes, t.hasMapping = true) : d.asks := by
  obtain ⟨t, ht, hmapping⟩ := h
  cases d with
  | record n title fields =>
    obtain ⟨f, hf, rfl⟩ := List.mem_map.1 ht
    refine ⟨"    pub " ++ f.name ++ ": " ++ f.type.text ++ ",", ?_, ?_⟩
    · simp only [Declaration.lines, recordLines, List.mem_append, List.mem_flatMap]
      exact .inl (.inr ⟨f, hf, by simp⟩)
    · rw [String.toList_append, String.toList_append]
      exact (mapMark_infix_text hmapping).trans (List.infix_append _ _ _)
  | _ => cases ht

theorem asks_blank (hd : d.IsNeat) (hw : ∀ w ∈ d.texts, ¬ mapMark <:+: w.toList) :
    d.asks ↔ d.blank.asks := by
  have hlines : ∀ {ls ms : List String}, List.Forall₂ (Twin d.texts) ls ms →
      ((∃ l ∈ ls, mapMark <:+: l.toList) ↔ ∃ l ∈ ms, mapMark <:+: l.toList) := fun h => by
    induction h with
    | nil => simp
    | cons hl _ ih => simp only [List.exists_mem_cons_iff, hl.infix_iff hw, ih]
  exact hlines (forall₂_twin_lines hd)

theorem Alike.asks_iff (ha : Alike d d') (hd : d.IsNeat) (hd' : d'.IsNeat)
    (hw : ∀ w ∈ d.texts, ¬ mapMark <:+: w.toList) (hw' : ∀ w ∈ d'.texts, ¬ mapMark <:+: w.toList) :
    d.asks ↔ d'.asks := by
  rw [asks_blank hd hw, asks_blank hd' hw', Declaration.asks, Declaration.asks]
  simp only [ha.perm_lines_blank.mem_iff]

/-- A file has the import if some declaration asks for it. -/
theorem occursIn_iff_asks {ds : List Declaration} :
    occursIn "BTreeMap<".toList (unlines (ds.flatMap Declaration.lines)).toList = true ↔
      ∃ d ∈ ds, d.asks := by
  have hne : mapMark ≠ [] := by decide
  have hbreak : '\n' ∉ mapMark := by decide
  rw [toList_mapMark, occursIn_iff, infix_unlines_iff hne hbreak]
  simp only [List.mem_flatMap, Declaration.asks]
  exact ⟨fun ⟨l, ⟨d, hd, hl⟩, h⟩ => ⟨d, hd, l, hl, h⟩, fun ⟨d, hd, l, hl, h⟩ => ⟨l, ⟨d, hd, hl⟩, h⟩⟩

/-! ## Files -/

/-- How many line breaks there are in the texts of documents. -/
def textBreaks (ds : List Declaration) : Nat := (ds.map fun d => (d.texts.map breaks).sum).sum

/-- No text of documents looks like an ordered map, unless some field is one. -/
def SparesImport (ds : List Declaration) : Prop :=
  (∃ d ∈ ds, ∃ t ∈ d.fieldTypes, t.hasMapping = true) ∨
    ∀ d ∈ ds, ∀ w ∈ d.texts, ¬ mapMark <:+: w.toList

variable {ds ds' : List Declaration}

theorem sum_breaks_fileLines (hneat : ∀ d ∈ ds, d.IsNeat) :
    ((fileLines ds).map breaks).sum = textBreaks ds := by
  have hbody : ((ds.flatMap Declaration.lines).map breaks).sum = textBreaks ds := by
    induction ds with
    | nil => rfl
    | cons d ds ih =>
      rw [List.forall_mem_cons] at hneat
      rw [List.flatMap_cons, List.map_append, List.sum_append, sum_breaks_lines hneat.1, ih hneat.2]
      rfl
  have hfront : ∀ b : Bool, ((["//! Auto-generated by wireplan-gen. DO NOT EDIT.", ""] ++
      if b then ["use std::collections::BTreeMap;", ""] else []).map breaks).sum = 0 := fun b =>
    sum_breaks_eq_zero_iff.2 (by cases b <;> simp)
  rw [fileLines, List.map_append, List.sum_append, hbody, hfront, zero_add]

/-- **A file has the lines that are put together**, and one more for each line break in a text. -/
theorem length_linesOf_fileText (hneat : ∀ d ∈ ds, d.IsNeat) :
    (linesOf (fileText ds)).length = (fileLines ds).length + textBreaks ds := by
  rw [fileText_eq, length_linesOf_unlines, sum_breaks_fileLines hneat]

theorem linesOf_fileText (hneat : ∀ d ∈ ds, d.IsNeat) (hbreaks : textBreaks ds = 0) :
    linesOf (fileText ds) = fileLines ds := by
  rw [← sum_breaks_fileLines hneat, sum_breaks_eq_zero_iff] at hbreaks
  rw [fileText_eq, linesOf_unlines hbreaks]

/-- Texts that spare the import leave it to the fields. -/
theorem exists_asks_congr
    (A : List.Forall₂ (fun d d' => Alike d d' ∧ d.IsNeat ∧ d'.IsNeat) ds ds') (I : SparesImport ds)
    (I' : SparesImport ds') : (∃ d ∈ ds, d.asks) ↔ ∃ d ∈ ds', d.asks := by
  have hcongr : ∀ {F : Declaration → Prop}, List.Forall₂ (fun d d' => F d ↔ F d') ds ds' →
      ((∃ d ∈ ds, F d) ↔ ∃ d ∈ ds', F d) := fun h => by
    clear A I I'
    induction h with
    | nil => simp
    | cons hd _ ih => rw [List.exists_mem_cons_iff, List.exists_mem_cons_iff, hd, ih]
  have htypes : (∃ d ∈ ds, ∃ t ∈ d.fieldTypes, t.hasMapping = true) ↔
      ∃ d ∈ ds', ∃ t ∈ d.fieldTypes, t.hasMapping = true :=
    hcongr (A.imp fun d d' ha => by rw [ha.1.fieldTypes_eq])
  by_cases hmap : ∃ d ∈ ds, ∃ t ∈ d.fieldTypes, t.hasMapping = true
  · exact iff_of_true (hmap.imp fun d hd => ⟨hd.1, asks_of_hasMapping hd.2⟩)
      ((htypes.1 hmap).imp fun d hd => ⟨hd.1, asks_of_hasMapping hd.2⟩)
  · have hw := I.resolve_left hmap
    have hw' := I'.resolve_left (mt htypes.2 hmap)
    exact hcongr (forall₂_imp_of_mem A fun d hd d' hd' ⟨ha, hneat, hneat'⟩ =>
      ha.asks_iff hneat hneat' (hw d hd) (hw' d' hd'))

theorem length_fileLines_congr
    (A : List.Forall₂ (fun d d' => Alike d d' ∧ d.IsNeat ∧ d'.IsNeat) ds ds')
    (hasks : (∃ d ∈ ds, d.asks) ↔ ∃ d ∈ ds', d.asks) :
    (fileLines ds).length = (fileLines ds').length := by
  rw [← occursIn_iff_asks, ← occursIn_iff_asks, ← Bool.eq_iff_iff] at hasks
  have hlengths : ds.map (fun d => d.lines.length) = ds'.map fun d => d.lines.length := by
    rw [← List.forall₂_eq_eq_eq, List.forall₂_map_left_iff, List.forall₂_map_right_iff]
    exact A.imp fun d d' ⟨ha, hd, hd'⟩ => ha.length_lines hd hd'
  simp only [fileLines, hasks, List.length_append, List.length_flatMap, hlengths]

theorem upToVariants_fileLines
    (A : List.Forall₂ (fun d d' => Alike d d' ∧ d.IsNeat ∧ d'.IsNeat) ds ds')
    (hasks : (∃ d ∈ ds, d.asks) ↔ ∃ d ∈ ds', d.asks) :
    UpToVariants (skeleton (fileLines ds)) (skeleton (fileLines ds')) := by
  rw [← occursIn_iff_asks, ← occursIn_iff_asks, ← Bool.eq_iff_iff] at hasks
  rw [fileLines, fileLines, hasks, skeleton_append, skeleton_append _ (ds'.flatMap _),
    skeleton_flatMap, skeleton_flatMap]
  exact (UpToVariants.refl _).append
    (.flatMap (A.imp fun d d' h => h.1.upToVariants h.2.1 h.2.2))

theorem PlainNames.congr (hm : c.mask = c'.mask) (P : PlainNames c) : PlainNames c' := by
  have hslot : ∀ s : Slot, Slot.isPlain s.mask = Slot.isPlain s := fun s => by
    rw [Slot.isPlain, Slot.isPlain, Slot.kind_mask]
    rcases s.kind with _ | _ | e | o <;>
      simp [Slot.mask, Kind.mask, Enumeration.mask, ObjectType.mask, Member.mask, Property.mask,
        Function.comp_def]
  have hmask : ∀ {c : Catalogue}, PlainNames c ↔ ∀ s ∈ c.mask.slots.toList, Slot.isPlain s = true :=
    fun {c} => by simp only [PlainNames, Catalogue.mask, Array.toList_map, List.forall_mem_map, hslot]
  rw [hmask, hm] at P
  exact hmask.2 P

/-- Catalogues of plain names with one mask have declarations that are alike and neat. -/
theorem forall₂_declarations (hc : c.Reachable) (hs : c.isSealed = true) (hc' : c'.Reachable)
    (hs' : c'.isSealed = true) (P : PlainNames c) (hm : c.mask = c'.mask) :
    List.Forall₂ (fun d d' => Alike d d' ∧ d.IsNeat ∧ d'.IsNeat) (declarations c) (declarations c') :=
  forall₂_imp_of_mem (forall₂_alike_declarations hc hs hc' hs' hm) fun d hd d' hd' ha =>
    ⟨ha, isNeat_declarations hc hs P d hd, isNeat_declarations hc' hs' (P.congr hm) d' hd'⟩

/-- **Texts of documents do not interfere unless they break lines.** Two catalogues that differ in
nothing else have files of as many lines exactly if their texts have as many line breaks, provided that
no text asks for the import of maps. If they have none, the skeletons of the files are the same up to
the order of variants. -/
theorem lines_of_mask_eq (hc : c.Reachable) (hs : c.isSealed = true) (hc' : c'.Reachable)
    (hs' : c'.isSealed = true) (P : PlainNames c) (hm : c.mask = c'.mask)
    (I : SparesImport (declarations c)) (I' : SparesImport (declarations c')) :
    ((linesOf (fileText (declarations c))).length = (linesOf (fileText (declarations c'))).length ↔
      textBreaks (declarations c) = textBreaks (declarations c')) ∧
    (textBreaks (declarations c) = 0 → textBreaks (declarations c') = 0 →
      UpToVariants (skeleton (linesOf (fileText (declarations c))))
        (skeleton (linesOf (fileText (declarations c'))))) := by
  have hneat := isNeat_declarations hc hs P
  have hneat' := isNeat_declarations hc' hs' (P.congr hm)
  have A := forall₂_declarations hc hs hc' hs' P hm
  have hasks := exists_asks_congr A I I'
  constructor
  · rw [length_linesOf_fileText hneat, length_linesOf_fileText hneat', length_fileLines_congr A hasks]
    omega
  · intro hbreaks hbreaks'
    rw [linesOf_fileText hneat hbreaks, linesOf_fileText hneat' hbreaks']
    exact upToVariants_fileLines A hasks

end Bindings

/-- The gallery with other texts in its documents. -/
def Catalogue.signs : Catalogue :=
  .ofEntities [
    ⟨"color", .enumeration
      ⟨[⟨"Red", "\"; \x7d"⟩, ⟨"DarkBlue", "*/ \\\\ BTreeMap<"⟩], true, true⟩⟩,
    ⟨"Figure", .object
      { properties := [{ name := "kind", wire := "pub fn kind()", type := .named ⟨0⟩, required := true }]
        discriminator := some "kind"
        discriminatorValue := some "z" }⟩,
    ⟨"RoundFigure", .object
      { base := some ⟨9⟩
        properties := [{ name := "color", wire := "\"color\"", type := .named ⟨8⟩ }]
        discriminatorValue := some "a" }⟩,
    ⟨"Frame", .object
      { properties := [
          { name := "main", wire := "1", type := .named ⟨9⟩, required := true },
          { name := "others", wire := "2", type := .collection .sequence (.named ⟨10⟩) true },
          { name := "paints", wire := "3", type := .collection .mapping (.named ⟨8⟩) false }] }⟩]

/-- The signs, sealed. -/
def Catalogue.sealedSigns : Catalogue :=
  signs.withForest ⟨[⟨⟨9⟩, "kind", [("a", ⟨10⟩), ("z", ⟨9⟩)]⟩], [(⟨9⟩, ⟨9⟩), (⟨10⟩, ⟨9⟩)]⟩

theorem Catalogue.reachable_sealedSigns : sealedSigns.Reachable :=
  .trySeal (c := signs) (.ofEntities (by decide)) (by decide)

namespace Bindings

open Catalogue (sealedGallery sealedSigns)

/-- The files of the gallery and of the signs have as many lines, and the same up to the order of the
variants of figures. -/
theorem lines_of_mask_eq_signs : sealedGallery.mask = sealedSigns.mask ∧
    (linesOf (fileText (declarations sealedGallery))).length =
      (linesOf (fileText (declarations sealedSigns))).length ∧
    UpToVariants (skeleton (linesOf (fileText (declarations sealedGallery))))
      (skeleton (linesOf (fileText (declarations sealedSigns)))) := by
  have hmask : sealedGallery.mask = sealedSigns.mask := Catalogue.mask_ofEntities rfl
  obtain ⟨hlength, hskeleton⟩ := lines_of_mask_eq Catalogue.reachable_sealedGallery rfl
    Catalogue.reachable_sealedSigns rfl (by decide) hmask (.inl (by decide)) (.inl (by decide))
  exact ⟨hmask, hlength.2 (by decide), hskeleton (by decide) (by decide)⟩

end Bindings

/-- A tone and its word. -/
def Catalogue.tones (word : String) : Catalogue :=
  .ofEntities [⟨"Tone", .enumeration ⟨[⟨"Dark", word⟩], true, false⟩⟩]

/-- The tones, sealed. -/
def Catalogue.sealedTones (word : String) : Catalogue := (tones word).withForest ⟨[], []⟩

theorem Catalogue.reachable_sealedTones (word : String) : (sealedTones word).Reachable := by
  have hnames : (Primitive.all.map Primitive.name ++ ["Tone"]).Nodup := by decide
  exact .trySeal (c := tones word) (.ofEntities hnames) rfl

theorem Catalogue.mask_sealedTones (word word' : String) :
    (sealedTones word).mask = (sealedTones word').mask :=
  mask_ofEntities rfl

namespace Bindings

open Catalogue (sealedTones)

/-- What stands between line breaks in the word of a member is a line of the file. -/
theorem mem_linesOf_of_word {ds : List Declaration} {n : String} {labels : List Label} {isOpen : Bool}
    (hd : .words n labels isOpen ∈ ds) {l : Label} (hl : l ∈ labels) (a b : List Char) {code : String}
    (hword : l.word.toList = a ++ '\n' :: (code.toList ++ '\n' :: b)) (hcode : '\n' ∉ code.toList) :
    code ∈ linesOf (fileText ds) := by
  have hcomment : "    /// \x60" ++ l.word ++ "\x60" ∈ wordsLines n labels isOpen := by
    have hlabels : "    /// \x60" ++ l.word ++ "\x60" ∈ labels.flatMap fun l =>
        ["    /// \x60" ++ l.word ++ "\x60", "    " ++ l.name ++ ","] :=
      List.mem_flatMap.2 ⟨l, hl, .head _⟩
    simp only [wordsLines, List.mem_append, hlabels, or_true, true_or]
  have hfile : "    /// \x60" ++ l.word ++ "\x60" ∈ fileLines ds :=
    List.mem_append_right _ (List.mem_flatMap.2 ⟨_, hd, hcomment⟩)
  rw [fileText_eq]
  exact mem_linesOf_unlines ("    /// \x60".toList ++ a) (b ++ ['\x60']) hfile (by simp [hword]) hcode

/-- The word of a tone can put a line of code into the file, and a word that looks like an ordered map
the import of maps. -/
theorem not_lines_of_mask_eq :
    (∀ w ∈ ["dark", "dark\x60\npub fn paint() \x7b\x7d\n/// \x60", "BTreeMap<"],
      (sealedTones w).Reachable ∧ (sealedTones w).isSealed = true ∧ PlainNames (sealedTones w) ∧
      (sealedTones w).mask = (sealedTones "dark").mask) ∧
    (linesOf (fileText (declarations (sealedTones "dark")))).length = 25 ∧
    (linesOf (fileText (declarations (sealedTones
      "dark\x60\npub fn paint() \x7b\x7d\n/// \x60")))).length = 27 ∧
    "pub fn paint() \x7b\x7d" ∈ skeleton (linesOf (fileText (declarations (sealedTones
      "dark\x60\npub fn paint() \x7b\x7d\n/// \x60")))) ∧
    (linesOf (fileText (declarations (sealedTones "BTreeMap<")))).length = 27 := by
  have hplain : ∀ w ∈ ["dark", "dark\x60\npub fn paint() \x7b\x7d\n/// \x60", "BTreeMap<"],
      PlainNames (sealedTones w) := by decide
  have hdecl : ∀ w ∈ ["dark", "dark\x60\npub fn paint() \x7b\x7d\n/// \x60", "BTreeMap<"],
      declarations (sealedTones w) = [.words "Tone" [⟨"Dark", w⟩] false] := by decide
  have hlength : ∀ w ∈ ["dark", "dark\x60\npub fn paint() \x7b\x7d\n/// \x60", "BTreeMap<"],
      (linesOf (fileText (declarations (sealedTones w)))).length =
        (fileLines (declarations (sealedTones w))).length + textBreaks (declarations (sealedTones w)) :=
    fun w hw => length_linesOf_fileText
      (isNeat_declarations (Catalogue.reachable_sealedTones w) rfl (hplain w hw))
  have hdark : ¬ ∃ d ∈ declarations (sealedTones "dark"), d.asks := by
    rw [hdecl _ (by simp)]
    simp [Declaration.asks, Declaration.lines, wordsLines, literal, literalChar, mapMark]
    simp only [← occursIn_iff]
    decide
  have hspares : ∀ w ∈ ["dark", "dark\x60\npub fn paint() \x7b\x7d\n/// \x60", "BTreeMap<"],
      ¬ mapMark <:+: w.toList → SparesImport (declarations (sealedTones w)) := fun w hw hmark => by
    rw [hdecl w hw]
    exact .inr (by simp [Declaration.texts, hmark])
  have hmap : ∃ d ∈ declarations (sealedTones "BTreeMap<"), d.asks := by
    rw [hdecl _ (by simp)]
    refine ⟨_, .head _, "    /// \x60BTreeMap<\x60", by simp [Declaration.lines, wordsLines], ?_⟩
    simp [mapMark]
    decide
  have hlines : (fileLines (declarations (sealedTones "dark"))).length = 25 := by
    rw [fileLines, if_neg (mt occursIn_iff_asks.1 hdark), hdecl _ (by simp)]
    rfl
  refine ⟨fun w hw => ⟨Catalogue.reachable_sealedTones w, rfl, hplain w hw,
    Catalogue.mask_sealedTones w _⟩, ?_, ?_, ?_, ?_⟩
  · rw [hlength _ (by simp), hlines, hdecl _ (by simp)]
    rfl
  · have A := forall₂_declarations (Catalogue.reachable_sealedTones "dark") rfl
      (Catalogue.reachable_sealedTones "dark\x60\npub fn paint() \x7b\x7d\n/// \x60") rfl
      (hplain _ (by simp)) (Catalogue.mask_sealedTones _ _)
    have hasks := exists_asks_congr A (hspares _ (by simp) (by simp [mapMark]; decide))
      (hspares _ (by simp) (by simp [mapMark]; decide))
    have hbreaks : textBreaks [.words "Tone"
        [⟨"Dark", "dark\x60\npub fn paint() \x7b\x7d\n/// \x60"⟩] false] = 2 := by decide
    rw [hlength _ (by simp), ← length_fileLines_congr A hasks, hlines, hdecl _ (by simp), hbreaks]
  · rw [hdecl _ (by simp), skeleton, List.mem_map]
    have hcode : "pub fn paint() \x7b\x7d" ∈ linesOf (fileText [.words "Tone"
        [⟨"Dark", "dark\x60\npub fn paint() \x7b\x7d\n/// \x60"⟩] false]) :=
      mem_linesOf_of_word (.head _) (.head _) "dark\x60".toList "/// \x60".toList (by simp) (by simp)
    exact ⟨_, List.mem_filter.2 ⟨hcode, by simp [isComment]; decide⟩, hollow_of_not_mem (by simp)⟩
  · rw [hlength _ (by simp), fileLines, if_pos (occursIn_iff_asks.2 hmap), hdecl _ (by simp)]
    rfl

end Bindings

end Marshal
