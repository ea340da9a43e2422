import Marshal.Proofs.Bindings.Declared
import Marshal.Proofs.Plan.Properties
import Marshal.Proofs.Text.Words

/-!
# Names in the output

The names that a file gives to types, fields and variants are read off its lines (`part?`). They can
be used if they differ where they have to and are identifiers. For a catalogue of plain names
`usable_iff` says when this is so: where the names do not collide after their case is converted, and
none is a keyword that is not evaded. Names that differ by more than case and underscores do not
collide (`usable_of_apart`).
-/

namespace Marshal

open Text (isPlain)
open Text.Words (pascal snake squash)

namespace Bindings

/-! ## Identifiers -/

/-- Whether a character may stand in an identifier. -/
def isIdentifierChar (c : Char) : Bool := c.isAlphanum || c == '_'

/-- Whether a text is an ASCII identifier or a keyword: letters, digits and underscores, of which the
first is no digit and which are not an underscore alone. -/
def isIdentifier (s : String) : Bool :=
  match s.toList with
  | [] => false
  | c :: cs => (c.isAlpha || (c == '_' && !cs.isEmpty)) && cs.all isIdentifierChar

/-- The keywords of Rust 2024, those in use and those that are reserved. -/
def keywords : List String :=
  ["as", "async", "await", "break", "const", "continue", "crate", "dyn", "else", "enum", "extern",
    "false", "fn", "for", "if", "impl", "in", "let", "loop", "match", "mod", "move", "mut", "pub",
    "ref", "return", "self", "Self", "static", "struct", "super", "trait", "true", "type", "unsafe",
    "use", "where", "while", "abstract", "become", "box", "do", "final", "gen", "macro", "override",
    "priv", "try", "typeof", "unsized", "virtual", "yield"]

/-- The keywords that have no raw form. -/
def rawless : List String := ["crate", "self", "super", "Self"]

/-- Whether a text may be the name of something: it is an identifier and no keyword, or an identifier
in raw form. -/
def isLegal (s : String) : Bool :=
  match s.toList with
  | 'r' :: '#' :: cs => isIdentifier (String.ofList cs) && String.ofList cs ∉ rawless
  | _ => isIdentifier s && s ∉ keywords

/-- The keywords that are not evaded: those that fields are not given in raw form, and those that have
none. -/
def unguarded : List String := keywords.filter fun w => w ∉ reservedWords ∨ w ∈ rawless

theorem isLegal_of_isIdentifier {s : String} (h : isIdentifier s = true) :
    isLegal s = true ↔ s ∉ keywords := by
  unfold isLegal
  split
  · rename_i cs hs
    simp [isIdentifier, hs, isIdentifierChar] at h
  · simp [h]

theorem isLegal_raw {s : String} (h : isIdentifier s = true) :
    isLegal ("r#" ++ s) = true ↔ s ∉ rawless := by
  have hs : ("r#" ++ s).toList = 'r' :: '#' :: s.toList := by simp
  simp only [isLegal, hs, String.ofList_toList, h]
  simp

theorem isIdentifier_snake {s : String} (hs : isPlain s = true) : isIdentifier (snake s) = true := by
  obtain ⟨c, cs, hcs, hc, hall⟩ := Text.Words.exists_snake hs
  simp only [isIdentifier, hcs, Bool.and_eq_true, Bool.or_eq_true, List.all_eq_true]
  refine ⟨.inl (by simp [Text.isAlpha_iff, hc]), fun d hd => ?_⟩
  rcases hall d hd with hsmall | rfl
  · simp [isIdentifierChar, Text.isAlphanum_of_isSmall hsmall]
  · rfl

theorem isIdentifier_pascal {s : String} (hs : isPlain s = true) :
    isIdentifier (pascal s) = true := by
  obtain ⟨c, cs, hcs, hc, hall⟩ := Text.Words.exists_pascal hs
  simp only [isIdentifier, hcs, Bool.and_eq_true, Bool.or_eq_true, List.all_eq_true]
  exact ⟨.inl (by simp [Text.isAlpha_iff, hc]), fun d hd => by simp [isIdentifierChar, hall d hd]⟩

/-- **A field has a legal name** unless the name of its property becomes a keyword that is not
evaded. -/
theorem isLegal_fieldName {s : String} (hs : isPlain s = true) :
    isLegal (fieldName s) = true ↔ snake s ∉ unguarded := by
  have hsub : ∀ w ∈ reservedWords, w ∈ keywords := by decide
  rw [fieldName]
  split
  · rename_i hmem
    simp [isLegal_raw (isIdentifier_snake hs), unguarded, hmem, hsub _ hmem]
  · rename_i hmem
    simp [isLegal_of_isIdentifier (isIdentifier_snake hs), unguarded, hmem]

example : unguarded = ["as", "async", "await", "break", "const", "continue", "crate", "dyn", "else",
    "extern", "false", "for", "if", "in", "let", "loop", "move", "mut", "pub", "self", "Self",
    "static", "super", "trait", "true", "unsafe", "where", "while", "abstract", "become", "box", "do",
    "final", "gen", "macro", "override", "priv", "try", "typeof", "unsized", "virtual", "yield"] := by
  decide

/-- A Pascal form is legal unless it is `Self`. -/
theorem isLegal_pascal {s : String} (hs : isPlain s = true) :
    isLegal (pascal s) = true ↔ pascal s ≠ "Self" := by
  have hcapital : ∀ w ∈ keywords, w.toList.head?.any Char.isUpper = true → w = "Self" := by decide
  rw [isLegal_of_isIdentifier (isIdentifier_pascal hs)]
  obtain ⟨c, cs, hcs, hc, -⟩ := Text.Words.exists_pascal hs
  constructor
  · rintro hn heq
    exact hn (heq ▸ by decide)
  · intro hn hmem
    exact hn (hcapital _ hmem (by simp [hcs, hc]))

theorem baseName_legal {s : String} (hs : isPlain s = true) :
    isIdentifier (baseName (pascal s)) = true ∧ baseName (pascal s) ∉ keywords := by
  have hcapital : ∀ w ∈ keywords, w.toList.head?.any Char.isUpper = true →
      ¬ "Base".toList <:+ w.toList := by decide
  have hsuffix : "Base".toList.all isIdentifierChar = true := by decide
  obtain ⟨c, cs, hcs, hc, hall⟩ := Text.Words.exists_pascal hs
  have hbase : (baseName (pascal s)).toList = c :: (cs ++ "Base".toList) := by
    rw [baseName, String.toList_append, hcs, List.cons_append]
  constructor
  · simp only [isIdentifier, hbase, Bool.and_eq_true, Bool.or_eq_true, List.all_append,
      List.all_eq_true]
    exact ⟨.inl (by simp [Text.isAlpha_iff, hc]), fun d hd => by simp [isIdentifierChar, hall d hd],
      List.all_eq_true.1 hsuffix⟩
  · intro hmem
    refine hcapital _ hmem (by simp [hbase, hc]) ?_
    rw [baseName, String.toList_append]
    exact List.suffix_append _ _

theorem mem_snake_ne {s : String} (hs : isPlain s = true) : '#' ∉ (snake s).toList := by
  obtain ⟨c, cs, hcs, hc, hall⟩ := Text.Words.exists_snake hs
  rw [hcs, List.mem_cons]
  rintro (rfl | hmem)
  · exact absurd hc (by decide)
  · rcases hall _ hmem with h | h
    · exact absurd h (by decide)
    · exact absurd h (by decide)

/-- Raw forms do not collide with the others. -/
theorem fieldName_inj {s t : String} (hs : isPlain s = true) (ht : isPlain t = true) :
    fieldName s = fieldName t ↔ snake s = snake t := by
  have hraw : ∀ {r : String} (v : String), isPlain r = true → "r#" ++ v ≠ snake r := fun v hr h =>
    mem_snake_ne hr (by simp [← h])
  constructor
  · intro h
    simp only [fieldName] at h
    split_ifs at h
    · simpa [← String.toList_inj] using h
    · exact absurd h (hraw _ ht)
    · exact absurd h.symm (hraw _ hs)
    · exact h
  · intro h
    rw [fieldName, fieldName, h]

/-! ## Reading names off lines -/

/-- Whether a character may stand in a name, also in raw form. -/
def isNameChar (c : Char) : Bool := isIdentifierChar c || c == '#'

/-- The name that some text begins with, if one of some marks is behind it. -/
def nameBefore? (marks : List Char) (cs : List Char) : Option String :=
  let name := cs.takeWhile isNameChar
  match cs.dropWhile isNameChar with
  | [] => none
  | d :: _ => if name ≠ [] ∧ d ∈ marks then some (String.ofList name) else none

/-- The name that a line gives to a variant or to a field, if it gives one. -/
def part? (line : String) : Option String :=
  match line.toList with
  | ' ' :: ' ' :: ' ' :: ' ' :: rest =>
    (nameBefore? [',', '('] rest).or <|
      match rest with
      | 'p' :: 'u' :: 'b' :: ' ' :: field => nameBefore? [':'] field
      | _ => none
  | _ => none

/-- The names that a declaration gives to variants or to fields. -/
def Declaration.parts : Declaration → List String
  | .words _ labels isOpen => labels.map Label.name ++ if isOpen then ["Unknown"] else []
  | .variants _ _ vs => vs.map Variant.name
  | .record _ _ fields => fields.map Field.name

/-- A text that can be read as a name. -/
def IsName (s : String) : Prop := s.toList ≠ [] ∧ ∀ c ∈ s.toList, isNameChar c = true

variable {n : String}

theorem nameBefore?_eq {marks : List Char} {d : Char} (hn : IsName n) (hd : d ∈ marks)
    (hchar : isNameChar d = false) (rest : List Char) :
    nameBefore? marks (n.toList ++ d :: rest) = some n := by
  have htake : (n.toList ++ d :: rest).takeWhile isNameChar = n.toList := by
    rw [List.takeWhile_append_of_pos hn.2, List.takeWhile_cons_of_neg (by simp [hchar]),
      List.append_nil]
  have hdrop : (n.toList ++ d :: rest).dropWhile isNameChar = d :: rest := by
    rw [List.dropWhile_append_of_pos hn.2, List.dropWhile_cons_of_neg (by simp [hchar])]
  simp [nameBefore?, htake, hdrop, hn.1, hd]

theorem part?_variant (hn : IsName n) {d : Char} (hd : d = ',' ∨ d = '(') (rest : List Char)
    {line : String} (hline : line.toList = "    ".toList ++ n.toList ++ d :: rest) :
    part? line = some n := by
  have hname : nameBefore? [',', '('] (n.toList ++ d :: rest) = some n := by
    rcases hd with rfl | rfl
    · exact nameBefore?_eq hn (by simp) rfl rest
    · exact nameBefore?_eq hn (by simp) rfl rest
  simp [part?, hline, hname]

theorem part?_field (hn : IsName n) (rest : List Char) {line : String}
    (hline : line.toList = "    pub ".toList ++ n.toList ++ ':' :: rest) :
    part? line = some n := by
  have hname : nameBefore? [':'] (n.toList ++ ':' :: rest) = some n :=
    nameBefore?_eq hn (by simp) rfl rest
  have hpub : nameBefore? [',', '('] ('p' :: 'u' :: 'b' :: ' ' :: (n.toList ++ ':' :: rest)) =
      none := rfl
  simp [part?, hline, hname, hpub]

/-- A comment gives no name. -/
theorem part?_comment (rest : List Char) {line : String}
    (hline : line.toList = "    ///".toList ++ rest) : part? line = none := by
  simp [part?, hline, nameBefore?, isNameChar, isIdentifierChar]

/-- Lines in pairs, of which the second gives a name. -/
theorem filterMap_part?_pairs {α : Type} (xs : List α) (comment line name : α → String)
    (h : ∀ x ∈ xs, part? (comment x) = none ∧ part? (line x) = some (name x)) :
    (xs.flatMap fun x => [comment x, line x]).filterMap part? = xs.map name := by
  induction xs with
  | nil => rfl
  | cons x xs ih =>
    obtain ⟨hcomment, hline⟩ := h x (by simp)
    simp [hcomment, hline, ih fun y hy => h y (List.mem_cons_of_mem x hy)]

/-- **The names of variants and fields stand in the lines of a declaration**, in their order. -/
theorem filterMap_part?_lines {d : Declaration} (hd : ∀ p ∈ d.parts, IsName p) :
    d.lines.filterMap part? = d.parts := by
  cases d with
  | words name labels isOpen =>
    have hlabels := filterMap_part?_pairs labels (fun l => "    /// \x60" ++ l.word ++ "\x60")
      (fun l => "    " ++ l.name ++ ",") Label.name fun l hl =>
        ⟨part?_comment (' ' :: '\x60' :: l.word.toList ++ ['\x60']) (by simp),
          part?_variant (hd _ (by simp [Declaration.parts]; exact .inl ⟨l, hl, rfl⟩)) (.inl rfl) []
            (by simp)⟩
    have hwords : ∀ ls : List Label, (ls.map fun l =>
        "            Self::" ++ l.name ++ " => \"" ++ literal l.word ++ "\",").filterMap part? = [] :=
      fun ls => by
        rw [List.filterMap_map, List.filterMap_eq_nil_iff]
        intro l _
        simp [part?, nameBefore?, isNameChar, isIdentifierChar]
    simp only [Declaration.lines, wordsLines, List.filterMap_append, hlabels, hwords]
    cases isOpen
    · simp [part?, nameBefore?, isNameChar, isIdentifierChar, Declaration.parts]
    · simp [part?, nameBefore?, isNameChar, isIdentifierChar, Declaration.parts]
  | variants name property vs =>
    have hvariants := filterMap_part?_pairs vs
      (fun v => "    /// \x60" ++ property ++ "\x60 = \x60" ++ v.word ++ "\x60.")
      (fun v => "    " ++ v.name ++ "(" ++ v.payload ++ "),") Variant.name fun v hv =>
        ⟨part?_comment (' ' :: '\x60' :: property.toList ++ "\x60 = \x60".toList ++ v.word.toList ++
            "\x60.".toList) (by simp),
          part?_variant (hd _ (List.mem_map_of_mem hv)) (.inr rfl) (v.payload.toList ++ "),".toList)
            (by simp)⟩
    simp [Declaration.lines, variantsLines, List.filterMap_append, hvariants, part?, Declaration.parts]
  | record name title fields =>
    have hfields := filterMap_part?_pairs fields
      (fun f => "    /// Wire name \x60" ++ f.wire ++ "\x60.")
      (fun f => "    pub " ++ f.name ++ ": " ++ f.type.text ++ ",") Field.name fun f hf =>
        ⟨part?_comment (" Wire name \x60".toList ++ f.wire.toList ++ "\x60.".toList) (by simp),
          part?_field (hd _ (List.mem_map_of_mem hf)) (' ' :: f.type.text.toList ++ [',']) (by simp)⟩
    simp [Declaration.lines, recordLines, List.filterMap_append, hfields, part?, Declaration.parts]

/-! ## Plain names -/

/-- Whether a type, its members and its properties have plain names. -/
def Slot.isPlain (s : Slot) : Bool :=
  Text.isPlain s.name &&
    match s.kind with
    | some (.enumeration e) => e.members.all fun m => Text.isPlain m.name
    | some (.object o) => o.properties.all fun p => Text.isPlain p.name
    | _ => true

/-- All names of a catalogue are plain: those of types, of members and of properties. -/
def PlainNames (c : Catalogue) : Prop := ∀ s ∈ c.slots.toList, Slot.isPlain s = true

variable {c : Catalogue} {h k r : Handle} {o : ObjectType} {x : Owner}

instance : Decidable (PlainNames c) := inferInstanceAs (Decidable (∀ s ∈ c.slots.toList, _))

namespace PlainNames

theorem exists_slot (P : PlainNames c) {kind : Kind} (hk : c.kind? h = some kind) :
    ∃ s, c.slot? h = some s ∧ s.kind = some kind ∧ Slot.isPlain s = true := by
  obtain ⟨s, hs, hkind⟩ := Option.bind_eq_some_iff.1 hk
  exact ⟨s, hs, hkind, Catalogue.forall_slots.1 P h s hs⟩

theorem nameOf (P : PlainNames c) {kind : Kind} (hk : c.kind? h = some kind) :
    isPlain (c.nameOf h) = true := by
  obtain ⟨s, hs, -, hplain⟩ := P.exists_slot hk
  simp only [Slot.isPlain, Bool.and_eq_true] at hplain
  rw [Catalogue.nameOf, hs]
  exact hplain.1

theorem nameOf_object (P : PlainNames c) (ho : c.object? h = some o) :
    isPlain (c.nameOf h) = true :=
  P.nameOf (Catalogue.object?_eq_some_iff.1 ho)

theorem nameOf_nameable (P : PlainNames c) (hx : x ∈ nameable c) :
    isPlain (c.nameOf x.type) = true := by
  rcases mem_nameable.1 hx with ⟨-, e, he⟩ | ⟨o, ho, -⟩
  · exact P.nameOf he
  · exact P.nameOf_object ho

theorem member (P : PlainNames c) {e : Enumeration} (he : c.kind? h = some (.enumeration e))
    {m : Member} (hm : m ∈ e.members) : isPlain m.name = true := by
  obtain ⟨s, -, hkind, hplain⟩ := P.exists_slot he
  simp only [Slot.isPlain, hkind, Bool.and_eq_true, List.all_eq_true] at hplain
  exact hplain.2 m hm

theorem property (P : PlainNames c) (hc : c.Acyclic) {p : Property}
    (hp : p ∈ c.effectiveProperties h) : isPlain p.name = true := by
  obtain ⟨a, o, -, ho, hpo⟩ := (Catalogue.mem_effectiveProperties hc).1 hp
  obtain ⟨s, -, hkind, hplain⟩ := P.exists_slot (Catalogue.object?_eq_some_iff.1 ho)
  simp only [Slot.isPlain, hkind, Bool.and_eq_true, List.all_eq_true] at hplain
  exact hplain.2 p hpo

end PlainNames

theorem isName_of_isIdentifier {s : String} (hs : isIdentifier s = true) : IsName s := by
  unfold isIdentifier at hs
  split at hs
  · cases hs
  · rename_i c cs hcs
    simp only [Bool.and_eq_true, Bool.or_eq_true, List.all_eq_true] at hs
    refine ⟨by simp [hcs], fun d hd => ?_⟩
    rw [hcs, List.mem_cons] at hd
    rcases hd with rfl | hd
    · rcases hs.1 with halpha | hunder
      · simp [isNameChar, isIdentifierChar, Char.isAlphanum, halpha]
      · simp [isNameChar, isIdentifierChar, hunder.1]
    · simp [isNameChar, hs.2 d hd]

theorem isName_fieldName {s : String} (hs : isPlain s = true) : IsName (fieldName s) := by
  obtain ⟨hne, hall⟩ := isName_of_isIdentifier (isIdentifier_snake hs)
  simp only [fieldName]
  split
  · have hraw : "r#".toList.all isNameChar = true := by decide
    refine ⟨by simp, fun d hd => ?_⟩
    simp only [String.toList_append, List.mem_append] at hd
    rcases hd with hd | hd
    · exact List.all_eq_true.1 hraw d hd
    · exact hall d hd
  · exact ⟨hne, hall⟩

/-! ## Names of declarations -/

/-- What holds of the enumerations, of the roots, and of the concrete types holds of all declarations. -/
theorem forall_declarations (hc : c.Reachable) (hs : c.isSealed = true) {Q : Declaration → Prop} :
    (∀ d ∈ declarations c, Q d) ↔
      (∀ h e, c.kind? h = some (.enumeration e) → Q (wordsOf c h e)) ∧
      (∀ r, c.Governs r r → Q (variantsOf c r)) ∧
      ∀ h o, c.object? h = some o → o.isAbstract = false →
        Q (recordOf c h (Owner.name c ⟨h, isRoot c h⟩)) := by
  constructor
  · intro H
    refine ⟨fun h e he => H _ (mem_declarations.2 (.inl ⟨h, e, he, rfl⟩)), fun r g => ?_,
      fun h o ho hconcrete => H _ (mem_declarations.2 (.inr ⟨h, o, ho,
        mem_objectDeclarations.2 (.inr ⟨hconcrete, rfl⟩)⟩))⟩
    obtain ⟨d, o, ho, -⟩ := g.2.1
    exact H _ (mem_declarations.2 (.inr ⟨r, o, ho,
      mem_objectDeclarations.2 (.inl ⟨(isRoot_iff hc hs).2 g, rfl⟩)⟩))
  · rintro ⟨hwords, hvariants, hrecord⟩ d hd
    rcases mem_declarations.1 hd with ⟨h, e, he, rfl⟩ | ⟨h, o, ho, hd⟩
    · exact hwords h e he
    · rcases mem_objectDeclarations.1 hd with ⟨hr, rfl⟩ | ⟨hconcrete, rfl⟩
      · exact hvariants h ((isRoot_iff hc hs).1 hr)
      · exact hrecord h o ho hconcrete

theorem parts_wordsOf (c : Catalogue) (h : Handle) (e : Enumeration) : (wordsOf c h e).parts =
    e.members.map (fun m => pascal m.name) ++ if e.isOpen then ["Unknown"] else [] := by
  simp [wordsOf, Declaration.parts]

theorem parts_variantsOf (c : Catalogue) (r : Handle) :
    (variantsOf c r).parts = (c.variantsFor r).map fun v => typeName c v.2 := by
  simp [variantsOf, Declaration.parts]

theorem parts_recordOf (c : Catalogue) (h : Handle) (name : String) :
    (recordOf c h name).parts = (c.effectiveProperties h).map fun p => fieldName p.name := by
  simp [recordOf, Declaration.parts]

/-- A type that a word of a root selects is an object type of the hierarchy. -/
theorem exists_of_mem_variantsFor (hc : c.Reachable) (hs : c.isSealed = true) (g : c.Governs r r)
    {v : String × Handle} (hv : v ∈ c.variantsFor r) :
    c.Governs r v.2 ∧ (c.word? v.2).isSome = true ∧ ∃ o, c.object? v.2 = some o := by
  obtain ⟨hi, hw⟩ := (hc.mem_variantsFor hs g (w := v.1)).1 hv
  obtain ⟨o, ho, -⟩ := Option.bind_eq_some_iff.1 hw
  exact ⟨g.of_inherits hi, by simp [hw], o, ho⟩

/-- Plain names can be read off the lines of declarations. -/
theorem filterMap_part?_declarations (hc : c.Reachable) (hs : c.isSealed = true) (P : PlainNames c) :
    ∀ d ∈ declarations c, d.lines.filterMap part? = d.parts := by
  have hpascal : ∀ {s}, isPlain s = true → IsName (pascal s) := fun hs =>
    isName_of_isIdentifier (isIdentifier_pascal hs)
  rw [forall_declarations hc hs]
  refine ⟨fun h e he => filterMap_part?_lines fun n hn => ?_,
    fun r g => filterMap_part?_lines fun n hn => ?_,
    fun h o ho _ => filterMap_part?_lines fun n hn => ?_⟩
  · rw [parts_wordsOf, List.mem_append, List.mem_map] at hn
    rcases hn with ⟨m, hm, rfl⟩ | hn
    · exact hpascal (P.member he hm)
    · split at hn
      · rw [List.mem_singleton] at hn
        exact hn ▸ isName_of_isIdentifier rfl
      · cases hn
  · rw [parts_variantsOf, List.mem_map] at hn
    obtain ⟨v, hv, rfl⟩ := hn
    obtain ⟨-, -, o, ho⟩ := exists_of_mem_variantsFor hc hs g hv
    exact hpascal (P.nameOf_object ho)
  · rw [parts_recordOf, List.mem_map] at hn
    obtain ⟨p, hp, rfl⟩ := hn
    exact isName_fieldName (P.property (hc.wellFormed hs).acyclic hp)

/-! ## Names that can be used -/

/-- **The names of a file can be used**: no type is declared twice by the lines that are written, the
names in a declaration differ, and all names are legal. -/
structure Usable (ds : List Declaration) : Prop where
  types : ∀ n, (fileLines ds).countP (declares n) ≤ 1
  parts : ∀ d ∈ ds, (d.lines.filterMap part?).Nodup
  legal : ∀ d ∈ ds, isLegal d.name = true ∧ ∀ n ∈ d.lines.filterMap part?, isLegal n = true

/-- **Names that are tame when their case is converted.** Those of types, of the members of an
enumeration, and of the types that words of a hierarchy select have different Pascal forms, none of
them `Self`, and none `Unknown` where that is a variant already. Those of the properties in effect
have different words, and no snake form that is a keyword and is not evaded. -/
structure Tame (c : Catalogue) : Prop where
  types : ((owners c).map (Owner.name c)).Nodup
  members : ∀ h e, c.kind? h = some (.enumeration e) → (e.members.map fun m => pascal m.name).Nodup
  unknown : ∀ h e, c.kind? h = some (.enumeration e) → e.isOpen = true → ∀ m ∈ e.members,
    pascal m.name ≠ "Unknown"
  variants : ∀ r h k, c.Governs r h → c.Governs r k → (c.word? h).isSome = true →
    (c.word? k).isSome = true → typeName c h = typeName c k → h = k
  fields : ∀ h o, c.object? h = some o → o.isAbstract = false →
    ((c.effectiveProperties h).map fun p =>
      (Text.Words.ofText p.name).map Text.Words.lowercase).Nodup
  selfless : (∀ h, ⟨h, false⟩ ∈ owners c ∨ (c.word? h).isSome = true → typeName c h ≠ "Self") ∧
    ∀ h e, c.kind? h = some (.enumeration e) → ∀ m ∈ e.members, pascal m.name ≠ "Self"
  guarded : ∀ h o, c.object? h = some o → o.isAbstract = false →
    ∀ p ∈ c.effectiveProperties h, snake p.name ∉ unguarded

/-- The variants of a root differ in their names if the types of the hierarchy that have words do. -/
theorem nodup_parts_variantsOf (hc : c.Reachable) (hs : c.isSealed = true) (g : c.Governs r r) :
    (variantsOf c r).parts.Nodup ↔ ∀ h k, c.Governs r h → c.Governs r k →
      (c.word? h).isSome = true → (c.word? k).isSome = true → typeName c h = typeName c k → h = k := by
  have hmem := fun k => hc.mem_map_snd_variantsFor hs g (k := k)
  have hparts : (variantsOf c r).parts = ((c.variantsFor r).map Prod.snd).map (typeName c) := by
    rw [parts_variantsOf, List.map_map]
    rfl
  rw [hparts]
  constructor
  · intro hnodup h k gh gk hh hk hname
    exact List.inj_on_of_nodup_map hnodup ((hmem h).2 ⟨gh, hh⟩) ((hmem k).2 ⟨gk, hk⟩) hname
  · intro H
    refine (hc.nodup_map_snd_variantsFor hs g).map_on fun h hh k hk hname => ?_
    obtain ⟨gh, hh⟩ := (hmem h).1 hh
    obtain ⟨gk, hk⟩ := (hmem k).1 hk
    exact H h k gh gk hh hk hname

theorem isLegal_name (P : PlainNames c) (hx : x ∈ owners c) :
    isLegal (x.name c) = true ↔ (x.beside = false → typeName c x.type ≠ "Self") := by
  have hplain := P.nameOf_nameable (mem_nameable_of_mem_owners hx)
  rw [Owner.name]
  split
  · rename_i hb
    obtain ⟨hident, hkey⟩ := baseName_legal hplain
    simp [typeName, isLegal_of_isIdentifier hident, hkey, hb]
  · rename_i hb
    rw [typeName, isLegal_pascal hplain]
    simp [hb]

/-- All names of declarations are legal unless that of a type that has one is `Self`. -/
theorem forall_isLegal_name (P : PlainNames c) :
    (∀ d ∈ declarations c, isLegal d.name = true) ↔
      ∀ h, ⟨h, false⟩ ∈ owners c → typeName c h ≠ "Self" := by
  have hnames : (∀ d ∈ declarations c, isLegal d.name = true) ↔
      ∀ x ∈ owners c, isLegal (x.name c) = true := by
    rw [← List.forall_mem_map (P := fun n => isLegal n = true), declarations_map_name,
      List.forall_mem_map]
  rw [hnames]
  constructor
  · exact fun H h hmem => (isLegal_name P hmem).1 (H _ hmem) rfl
  · rintro H ⟨h, b⟩ hx
    refine (isLegal_name P hx).2 ?_
    rintro rfl
    exact H h hx

/-- The names of the members of an enumeration differ, also from that of the variant for other words. -/
theorem nodup_parts_wordsOf (c : Catalogue) (h : Handle) (e : Enumeration) :
    (wordsOf c h e).parts.Nodup ↔ (e.members.map fun m => pascal m.name).Nodup ∧
      (e.isOpen = true → ∀ m ∈ e.members, pascal m.name ≠ "Unknown") := by
  rw [parts_wordsOf, List.nodup_append]
  cases e.isOpen <;> simp

/-- The names of fields differ if the words of the names of properties do. -/
theorem nodup_parts_recordOf {name : String}
    (P : ∀ p ∈ c.effectiveProperties h, isPlain p.name = true) :
    (recordOf c h name).parts.Nodup ↔ ((c.effectiveProperties h).map fun p =>
      (Text.Words.ofText p.name).map Text.Words.lowercase).Nodup := by
  rw [parts_recordOf, List.Nodup, List.Nodup, List.pairwise_map, List.pairwise_map]
  refine List.Pairwise.iff_of_mem fun {p q} hp hq => not_congr ?_
  rw [fieldName_inj (P p hp) (P q hq), Text.Words.snake_inj (P p hp) (P q hq)]

theorem forall_isLegal_parts_wordsOf (P : PlainNames c) {e : Enumeration}
    (he : c.kind? h = some (.enumeration e)) :
    (∀ n ∈ (wordsOf c h e).parts, isLegal n = true) ↔
      ∀ m ∈ e.members, pascal m.name ≠ "Self" := by
  have hmembers : (∀ n ∈ e.members.map (fun m => pascal m.name), isLegal n = true) ↔
      ∀ m ∈ e.members, pascal m.name ≠ "Self" := by
    rw [List.forall_mem_map]
    exact forall₂_congr fun m hm => isLegal_pascal (P.member he hm)
  have hunknown : isLegal "Unknown" = true := by decide
  rw [parts_wordsOf, List.forall_mem_append, hmembers]
  cases e.isOpen <;> simp [hunknown]

theorem forall_isLegal_parts_variantsOf (hc : c.Reachable) (hs : c.isSealed = true)
    (P : PlainNames c) (g : c.Governs r r) :
    (∀ n ∈ (variantsOf c r).parts, isLegal n = true) ↔
      ∀ h, c.Governs r h → (c.word? h).isSome = true → typeName c h ≠ "Self" := by
  have hlegal : ∀ {h}, (c.word? h).isSome = true →
      (isLegal (typeName c h) = true ↔ typeName c h ≠ "Self") := fun {h} hw => by
    obtain ⟨w, hw⟩ := Option.isSome_iff_exists.1 hw
    obtain ⟨o, ho, -⟩ := Option.bind_eq_some_iff.1 hw
    exact isLegal_pascal (P.nameOf_object ho)
  rw [parts_variantsOf, List.forall_mem_map]
  constructor
  · intro H h gh hh
    obtain ⟨w, hw⟩ := Option.isSome_iff_exists.1 hh
    exact (hlegal hh).1 (H (w, h) ((hc.mem_variantsFor hs g).2 ⟨gh.1, hw⟩))
  · intro H v hv
    obtain ⟨gv, hw, -⟩ := exists_of_mem_variantsFor hc hs g hv
    exact (hlegal hw).2 (H v.2 gv hw)

theorem forall_isLegal_parts_recordOf {name : String}
    (P : ∀ p ∈ c.effectiveProperties h, isPlain p.name = true) :
    (∀ n ∈ (recordOf c h name).parts, isLegal n = true) ↔
      ∀ p ∈ c.effectiveProperties h, snake p.name ∉ unguarded := by
  rw [parts_recordOf, List.forall_mem_map]
  exact forall₂_congr fun p hp => isLegal_fieldName (P p hp)

/-- Whether the names of a file can be used is seen from its declarations. -/
theorem usable_declarations (hc : c.Reachable) (hs : c.isSealed = true) (P : PlainNames c) :
    Usable (declarations c) ↔ ((owners c).map (Owner.name c)).Nodup ∧
      (∀ d ∈ declarations c, d.parts.Nodup) ∧
      (∀ h, ⟨h, false⟩ ∈ owners c → typeName c h ≠ "Self") ∧
      ∀ d ∈ declarations c, ∀ n ∈ d.parts, isLegal n = true := by
  have hparts := filterMap_part?_declarations hc hs P
  have htypes : (∀ n, (fileLines (declarations c)).countP (declares n) ≤ 1) ↔
      ((owners c).map (Owner.name c)).Nodup := by
    simp only [countP_declares, declarations_map_name, List.nodup_iff_count_le_one]
  have hnodup : (∀ d ∈ declarations c, (d.lines.filterMap part?).Nodup) ↔
      ∀ d ∈ declarations c, d.parts.Nodup :=
    forall₂_congr fun d hd => by rw [hparts d hd]
  have hlegal : (∀ d ∈ declarations c, isLegal d.name = true ∧
      ∀ n ∈ d.lines.filterMap part?, isLegal n = true) ↔
        (∀ h, ⟨h, false⟩ ∈ owners c → typeName c h ≠ "Self") ∧
        ∀ d ∈ declarations c, ∀ n ∈ d.parts, isLegal n = true := by
    rw [← forall_isLegal_name P, ← forall₂_and]
    exact forall₂_congr fun d hd => by rw [hparts d hd]
  rw [← htypes, ← hnodup, ← hlegal]
  exact ⟨fun U => ⟨U.types, U.parts, U.legal⟩, fun ⟨types, parts, legal⟩ => ⟨types, parts, legal⟩⟩

/-- **The names of a file can be used** exactly when those of the catalogue are tame. -/
theorem usable_iff (hc : c.Reachable) (hs : c.isSealed = true) (P : PlainNames c) :
    fileText (declarations c) = unlines (fileLines (declarations c)) ∧
    (Usable (declarations c) ↔ Tame c) := by
  have hplain := fun h p (hp : p ∈ c.effectiveProperties h) =>
    P.property (hc.wellFormed hs).acyclic hp
  refine ⟨fileText_eq _, ?_⟩
  rw [usable_declarations hc hs P]
  constructor
  · rintro ⟨types, parts, hnames, legal⟩
    obtain ⟨hwords, hvariants, hrecords⟩ := (forall_declarations hc hs).1 parts
    obtain ⟨hlw, hlv, hlr⟩ := (forall_declarations hc hs).1 legal
    refine ⟨types, fun h e he => ((nodup_parts_wordsOf c h e).1 (hwords h e he)).1,
      fun h e he => ((nodup_parts_wordsOf c h e).1 (hwords h e he)).2, fun r h k gh => ?_,
      fun h o ho hconcrete => (nodup_parts_recordOf (hplain h)).1 (hrecords h o ho hconcrete),
      ⟨fun h hh => ?_, fun h e he => (forall_isLegal_parts_wordsOf P he).1 (hlw h e he)⟩,
      fun h o ho hconcrete => (forall_isLegal_parts_recordOf (hplain h)).1 (hlr h o ho hconcrete)⟩
    · exact (nodup_parts_variantsOf hc hs gh.self).1 (hvariants r gh.self) h k gh
    · rcases hh with hmem | hword
      · exact hnames h hmem
      · obtain ⟨w, hw⟩ := Option.isSome_iff_exists.1 hword
        obtain ⟨r, g, gh⟩ := hc.exists_governs_of_word hs hw
        exact (forall_isLegal_parts_variantsOf hc hs P g).1 (hlv r g) h gh hword
  · intro T
    refine ⟨T.types, (forall_declarations hc hs).2 ⟨fun h e he => ?_, fun r g => ?_,
      fun h o ho hconcrete => ?_⟩, fun h hmem => T.selfless.1 h (.inl hmem),
      (forall_declarations hc hs).2 ⟨fun h e he => ?_, fun r g => ?_, fun h o ho hconcrete => ?_⟩⟩
    · exact (nodup_parts_wordsOf c h e).2 ⟨T.members h e he, T.unknown h e he⟩
    · exact (nodup_parts_variantsOf hc hs g).2 (T.variants r)
    · exact (nodup_parts_recordOf (hplain h)).2 (T.fields h o ho hconcrete)
    · exact (forall_isLegal_parts_wordsOf P he).2 (T.selfless.2 h e he)
    · exact (forall_isLegal_parts_variantsOf hc hs P g).2 fun h _ hw => T.selfless.1 h (.inr hw)
    · exact (forall_isLegal_parts_recordOf (hplain h)).2 (T.guarded h o ho hconcrete)

open Catalogue (sealedGallery) in
/-- The names of the gallery can be used. -/
theorem usable_gallery : sealedGallery.Reachable ∧ PlainNames sealedGallery ∧
    Usable (declarations sealedGallery) ∧ Tame sealedGallery := by
  have P : PlainNames sealedGallery := by decide
  have hparts := filterMap_part?_declarations Catalogue.reachable_sealedGallery rfl P
  have hcount : ∀ n, (fileLines (declarations sealedGallery)).countP (declares n) ≤ 1 := fun n => by
    rw [countP_declares]
    exact List.nodup_iff_count_le_one.1 (by decide) n
  have hnodup : ∀ d ∈ declarations sealedGallery, d.parts.Nodup := by decide
  have hlegal : ∀ d ∈ declarations sealedGallery, isLegal d.name = true ∧
      ∀ n ∈ d.parts, isLegal n = true := by decide
  have U : Usable (declarations sealedGallery) :=
    ⟨hcount, fun d hd => hparts d hd ▸ hnodup d hd, fun d hd => hparts d hd ▸ hlegal d hd⟩
  exact ⟨Catalogue.reachable_sealedGallery, P, U,
    (usable_iff Catalogue.reachable_sealedGallery rfl P).2.1 U⟩

end Bindings

/-- Two types whose names differ in case and underscores only, one of them with properties that are
named like keywords and like each other, and an open enumeration with a member named `Unknown`. -/
def Catalogue.hazards : Catalogue :=
  .ofEntities [
    ⟨"foo_bar", .object
      { properties := [
          { name := "loop", wire := "loop", type := .named ⟨0⟩ },
          { name := "self", wire := "self", type := .named ⟨0⟩ },
          { name := "inkTone", wire := "inkTone", type := .named ⟨10⟩ },
          { name := "ink_tone", wire := "ink_tone", type := .named ⟨10⟩ }] }⟩,
    ⟨"FooBar", .object {}⟩,
    ⟨"Tone", .enumeration ⟨[⟨"Dark", "dark"⟩, ⟨"Unknown", "unknown"⟩], true, true⟩⟩]

/-- The hazards, sealed. -/
def Catalogue.sealedHazards : Catalogue := hazards.withForest ⟨[], []⟩

theorem Catalogue.reachable_sealedHazards : sealedHazards.Reachable :=
  .trySeal (c := hazards) (.ofEntities (by decide)) (by decide)

namespace Bindings

open Catalogue (sealedHazards) in
/-- Two records are named `FooBar`. One of them has a field `loop`, a field `r#self`, and two fields
`ink_tone`; neither of the first two is a legal name. The enumeration has two variants `Unknown`. -/
theorem not_usable : sealedHazards.Reachable ∧ sealedHazards.isSealed = true ∧
    PlainNames sealedHazards ∧
    (fileLines (declarations sealedHazards)).countP (declares "FooBar") = 2 ∧
    (∃ d ∈ declarations sealedHazards, d.name = "FooBar" ∧
      d.lines.filterMap part? = ["loop", "r#self", "ink_tone", "ink_tone"]) ∧
    isLegal "loop" = false ∧ isLegal "r#self" = false ∧
    ∃ d ∈ declarations sealedHazards, d.lines.filterMap part? = ["Dark", "Unknown", "Unknown"] := by
  have P : PlainNames sealedHazards := by decide
  have hparts := filterMap_part?_declarations Catalogue.reachable_sealedHazards rfl P
  have hfields : ∃ d ∈ declarations sealedHazards, d.name = "FooBar" ∧
      d.parts = ["loop", "r#self", "ink_tone", "ink_tone"] := by decide
  have hvariants : ∃ d ∈ declarations sealedHazards, d.parts = ["Dark", "Unknown", "Unknown"] := by
    decide
  obtain ⟨d, hd, hname, hfields⟩ := hfields
  obtain ⟨e, he, hvariants⟩ := hvariants
  refine ⟨Catalogue.reachable_sealedHazards, rfl, P, ?_,
    ⟨d, hd, hname, (hparts d hd).trans hfields⟩, by decide, by decide,
    ⟨e, he, (hparts e he).trans hvariants⟩⟩
  rw [countP_declares]
  decide

/-! ## Names that are far apart -/

variable {c : Catalogue} {x : Owner}

/-- The letters and digits of the name of an owner, up to their case. -/
def Owner.squash (c : Catalogue) (x : Owner) : List Char :=
  Text.Words.squash (c.nameOf x.type) ++ if x.beside then "base".toList else []

/-- **Names that differ by more than case and underscores**, also from the words that stand for
something, and no property whose name becomes a keyword that is not evaded. -/
structure Apart (c : Catalogue) : Prop where
  types : ((nameable c).map (Owner.squash c)).Nodup
  members : ∀ h e, c.kind? h = some (.enumeration e) → (e.members.map fun m => squash m.name).Nodup
  fields : ∀ h o, c.object? h = some o → o.isAbstract = false →
    ((c.effectiveProperties h).map fun p => squash p.name).Nodup
  unused : (∀ x ∈ nameable c, x.squash c ≠ "self".toList) ∧
    ∀ h e, c.kind? h = some (.enumeration e) → ∀ m ∈ e.members,
      squash m.name ≠ "self".toList ∧ squash m.name ≠ "unknown".toList
  guarded : ∀ h o, c.object? h = some o → o.isAbstract = false →
    ∀ p ∈ c.effectiveProperties h, snake p.name ∉ unguarded

theorem map_toLower_name (P : PlainNames c) (hx : x ∈ nameable c) :
    (x.name c).toList.map Char.toLower = x.squash c := by
  have hplain := P.nameOf_nameable hx
  rw [Owner.name, Owner.squash, ← Text.Words.map_toLower_pascal hplain]
  split
  · rw [baseName, String.toList_append, List.map_append]
    rfl
  · rw [List.append_nil]
    rfl

/-- Names that are far apart can be used. -/
theorem usable_of_apart (hc : c.Reachable) (hs : c.isSealed = true) (P : PlainNames c)
    (A : Apart c) : Usable (declarations c) := by
  have W := hc.wellFormed hs
  have hinj : ∀ x ∈ nameable c, ∀ y ∈ nameable c, x.name c = y.name c → x = y :=
    fun x hx y hy h => List.inj_on_of_nodup_map A.types hx hy
      (by rw [← map_toLower_name P hx, ← map_toLower_name P hy, h])
  have hobject : ∀ {h}, (c.word? h).isSome = true → ⟨h, false⟩ ∈ nameable c := fun {h} hh => by
    obtain ⟨w, hw⟩ := Option.isSome_iff_exists.1 hh
    obtain ⟨o, ho, -⟩ := Option.bind_eq_some_iff.1 hw
    exact mem_nameable.2 (.inr ⟨o, ho, nofun⟩)
  have hself : ∀ {h}, ⟨h, false⟩ ∈ nameable c → typeName c h ≠ "Self" := fun {h} hmem heq =>
    A.unused.1 _ hmem (by rw [← map_toLower_name P hmem, Owner.name, if_neg nofun, heq]; decide)
  have hmember : ∀ {h e m}, c.kind? h = some (.enumeration e) → m ∈ e.members →
      (pascal m.name).toList.map Char.toLower = squash m.name := fun he hm =>
    Text.Words.map_toLower_pascal (P.member he hm)
  refine ((usable_iff hc hs P).2).2 ?_
  constructor
  · exact (nodup_owners c).map_on fun x hx y hy =>
      hinj x (mem_nameable_of_mem_owners hx) y (mem_nameable_of_mem_owners hy)
  · intro h e he
    refine List.Nodup.map_on (fun m hm m' hm' hname => ?_) (A.members h e he).of_map
    exact List.inj_on_of_nodup_map (A.members h e he) hm hm'
      (Text.Words.squash_eq_of_pascal_eq (P.member he hm) (P.member he hm') hname)
  · intro h e he _ m hm heq
    exact (A.unused.2 h e he m hm).2 (by rw [← hmember he hm, heq]; decide)
  · intro r h k _ _ hh hk hname
    exact (Owner.mk.inj (hinj _ (hobject hh) _ (hobject hk) hname)).1
  · intro h o ho hconcrete
    have hplain := fun p (hp : p ∈ c.effectiveProperties h) => P.property W.acyclic hp
    refine List.Nodup.map_on (fun p hp q hq hwords => ?_) (A.fields h o ho hconcrete).of_map
    exact List.inj_on_of_nodup_map (A.fields h o ho hconcrete) hp hq
      (Text.Words.squash_eq_of_snake_eq (hplain p hp) (hplain q hq)
        ((Text.Words.snake_inj (hplain p hp) (hplain q hq)).2 hwords))
  · refine ⟨fun h hh => hself ?_, fun h e he m hm heq => ?_⟩
    · rcases hh with hmem | hword
      · exact mem_nameable_of_mem_owners hmem
      · exact hobject hword
    · exact (A.unused.2 h e he m hm).1 (by rw [← hmember he hm, heq]; decide)
  · exact A.guarded

end Bindings

end Marshal
