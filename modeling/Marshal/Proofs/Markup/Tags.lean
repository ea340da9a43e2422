import Marshal.Markup.Sink
import Marshal.Proofs.Markup.Escape
import Marshal.Proofs.Outcome

/-!
# Tags are read back

The inside of a start tag holds no `>` outside of quotes, so a tag ends where it was ended
(`cutTag?_inside`). `Head.ofTag_inside`: taken apart, it gives its name and its attributes.
-/

namespace Marshal.Markup

open Text

theorem ofText_append (s t : String) : Symbol.ofText (s ++ t) = Symbol.ofText s ++ Symbol.ofText t := by
  rw [Symbol.ofText, String.toList_append, List.map_append]
  rfl

theorem mem_ofText {s : String} {x : Symbol} : x ∈ Symbol.ofText s ↔ ∃ c ∈ s.toList, x = .char c := by
  rw [Symbol.ofText, List.mem_map]
  simp only [eq_comm]

/-! ## Names -/

/-- Characters that take a tag apart. -/
def tagMarks : List Char := [' ', '\t', '\n', '\r', '=', '"', '\'', '<', '>', '/', '!', '?']

theorem not_isNameRest_of_mem : ∀ c ∈ tagMarks, isNameStart c = false ∧ isNameRest c = false := by
  have hall : (tagMarks.all fun c => !isNameStart c && !isNameRest c) = true := by decide +kernel
  intro c hc
  simpa using List.all_eq_true.1 hall c hc

/-- No mark stands in a name. -/
theorem not_mem_tagMarks {name : String} (h : isName name = true) :
    ∀ c ∈ name.toList, c ∉ tagMarks := by
  intro c hc hm
  unfold isName at h
  split at h
  · cases h
  · rename_i d cs hcs
    rw [Bool.and_eq_true, List.all_eq_true] at h
    rw [hcs] at hc
    obtain ⟨hstart, hrest⟩ := not_isNameRest_of_mem c hm
    rcases List.mem_cons.1 hc with rfl | hc
    · rw [h.1] at hstart
      cases hstart
    · rw [h.2 c hc] at hrest
      cases hrest

theorem exists_cons_of_isName {name : String} (h : isName name = true) :
    ∃ c cs, name.toList = c :: cs := by
  unfold isName at h
  split at h
  · cases h
  · exact ⟨_, _, ‹_›⟩

/-- What a piece of a name is not. -/
theorem ne_of_mem_name {name : String} (h : isName name = true) {x : Symbol}
    (hx : x ∈ Symbol.ofText name) : isSpace x = false ∧ isChar '=' x = false ∧ quote? x = none ∧
      x ≠ .char '>' ∧ x ≠ .char '/' ∧ x ≠ .char '!' ∧ x ≠ .char '?' := by
  obtain ⟨c, hc, rfl⟩ := mem_ofText.1 hx
  have hm := not_mem_tagMarks h c hc
  simp only [tagMarks, List.mem_cons, not_or, List.not_mem_nil, not_false_eq_true, and_true] at hm
  obtain ⟨h₁, h₂, h₃, h₄, h₅, h₆, h₇, -, h₉, h₁₀, h₁₁, h₁₂⟩ := hm
  simp [isSpace, isChar, quote?, *]

/-- The name under which an element or attribute is read: what follows the first colon, or all of it. -/
def localName (name : String) : String := Symbol.lossyText (localPart (Symbol.ofText name))

theorem lossyText_map_char (cs : List Char) :
    Symbol.lossyText (cs.map .char) = String.ofList cs := by
  rw [Symbol.lossyText, List.map_map]
  exact congrArg String.ofList (List.map_id cs)

theorem localPart_ofText (name : String) : ∃ cs : List Char,
    localPart (Symbol.ofText name) = cs.map .char ∧ (':' ∉ name.toList → cs = name.toList) := by
  unfold localPart
  split
  · rename_i x rest hd
    obtain ⟨pre, hpre⟩ := List.dropWhile_suffix (l := Symbol.ofText name) fun s => !isChar ':' s
    rw [hd, Symbol.ofText] at hpre
    obtain ⟨as, bs, hab, rfl, hbs⟩ := List.map_eq_append_iff.1 hpre.symm
    obtain ⟨c, cs, rfl, rfl, rfl⟩ := List.map_eq_cons_iff.1 hbs
    refine ⟨cs, rfl, fun hcolon => absurd ?_ hcolon⟩
    have hstop : isChar ':' (.char c) = true := by
      have := List.head?_dropWhile_not (fun s => !isChar ':' s) (Symbol.ofText name)
      rw [hd] at this
      simpa using this
    have hc : c = ':' := by simpa [isChar] using hstop
    rw [hab, hc]
    exact List.mem_append_right _ List.mem_cons_self
  · exact ⟨name.toList, rfl, fun _ => rfl⟩

theorem textOf_localPart (name : String) :
    textOf (localPart (Symbol.ofText name)) = .ok (localName name) := by
  obtain ⟨cs, hcs, -⟩ := localPart_ofText name
  rw [localName, hcs, lossyText_map_char, textOf, Symbol.text?, Symbol.chars?_map_char]
  rfl

/-- A name without a colon is read as it is. -/
theorem localName_eq_self {name : String} (h : ':' ∉ name.toList) : localName name = name := by
  obtain ⟨cs, hcs, hself⟩ := localPart_ofText name
  rw [localName, hcs, lossyText_map_char, hself h, String.ofList_toList]

/-! ## Where a tag ends -/

/-- A stretch of a tag that quotes nothing and ends nothing. -/
theorem cutTag?_append {a : Piece} (ha : ∀ s ∈ a, s ≠ .char '>' ∧ quote? s = none) (r : Piece) :
    cutTag? none (a ++ r) = (cutTag? none r).map fun p => (a ++ p.1, p.2) := by
  induction a with
  | nil => simp
  | cons s a ih =>
    obtain ⟨⟨hs, hq⟩, has⟩ := List.forall_mem_cons.1 ha
    rw [List.cons_append, cutTag?, if_neg hs, hq, ih has, Option.map_map]
    rfl

/-- A quoted stretch of a tag. -/
theorem cutTag?_quoted {q : Char} {a : Piece} (ha : ∀ s ∈ a, s ≠ .char q) (r : Piece) :
    cutTag? (some q) (a ++ .char q :: r) =
      (cutTag? none r).map fun p => (a ++ .char q :: p.1, p.2) := by
  induction a with
  | nil =>
    rw [List.nil_append, cutTag?, if_pos rfl]
    rfl
  | cons s a ih =>
    obtain ⟨hs, has⟩ := List.forall_mem_cons.1 ha
    rw [List.cons_append, cutTag?, if_neg hs, ih has, Option.map_map]
    rfl

/-- An attribute as it is written. -/
def attributePiece (a : String × String) : Piece :=
  .char ' ' :: (Symbol.ofText a.1 ++
    .char '=' :: .char '"' :: (Symbol.ofText (escape a.2) ++ [.char '"']))

theorem ofText_inside (t : Tag) :
    Symbol.ofText t.inside = Symbol.ofText t.name ++ t.attributes.flatMap attributePiece := by
  rw [Tag.inside, ofText_append]
  refine congrArg _ ?_
  induction t.attributes with
  | nil => rfl
  | cons a as ih =>
    rw [List.map_cons, String.join_cons, ofText_append, ih, List.flatMap_cons]
    simp only [ofText_append, attributePiece]
    simp [Symbol.ofText]

theorem ne_of_mem_escape {s : String} {x : Symbol} (hx : x ∈ Symbol.ofText (escape s)) :
    x ≠ .char '<' ∧ x ≠ .char '>' ∧ x ≠ .char '"' := by
  obtain ⟨c, hc, rfl⟩ := mem_ofText.1 hx
  rw [escape, String.toList_ofList] at hc
  obtain ⟨hlt, hgt, -, hq⟩ := ne_of_mem_escaped hc
  simp [hlt, hgt, hq]

theorem cutTag?_attributePiece {a : String × String} (ha : isName a.1 = true) (r : Piece) :
    cutTag? none (attributePiece a ++ r) =
      (cutTag? none r).map fun p => (attributePiece a ++ p.1, p.2) := by
  have hname : ∀ s ∈ .char ' ' :: (Symbol.ofText a.1 ++ [.char '=']),
      s ≠ .char '>' ∧ quote? s = none := by
    intro s hs
    rw [List.mem_cons, List.mem_append, List.mem_singleton] at hs
    rcases hs with rfl | hs | rfl
    · exact ⟨by decide, rfl⟩
    · obtain ⟨-, -, hq, hgt, -⟩ := ne_of_mem_name ha hs
      exact ⟨hgt, hq⟩
    · exact ⟨by decide, rfl⟩
  have hsplit : attributePiece a ++ r = (.char ' ' :: (Symbol.ofText a.1 ++ [.char '='])) ++
      .char '"' :: (Symbol.ofText (escape a.2) ++ .char '"' :: r) := by
    simp [attributePiece]
  have hquote : quote? (.char '"') = some '"' := rfl
  rw [hsplit, cutTag?_append hname, cutTag?, if_neg (by decide), hquote,
    cutTag?_quoted fun s hs => (ne_of_mem_escape hs).2.2]
  rw [Option.map_map, Option.map_map]
  refine congrArg (fun f => Option.map f (cutTag? none r)) (funext fun p => ?_)
  simp [attributePiece]

theorem cutTag?_attributes {as : List (String × String)} (ha : ∀ a ∈ as, isName a.1 = true)
    (r : Piece) : cutTag? none (as.flatMap attributePiece ++ r) =
      (cutTag? none r).map fun p => (as.flatMap attributePiece ++ p.1, p.2) := by
  induction as with
  | nil => simp
  | cons a as ih =>
    obtain ⟨ha, has⟩ := List.forall_mem_cons.1 ha
    rw [List.flatMap_cons, List.append_assoc, cutTag?_attributePiece ha, ih has, Option.map_map]
    simp only [List.append_assoc]
    rfl

/-- **A tag ends where it was ended.** -/
theorem cutTag?_inside {t : Tag} (ht : isName t.name = true)
    (ha : ∀ a ∈ t.attributes, isName a.1 = true) (r : Piece) :
    cutTag? none (Symbol.ofText t.inside ++ r) =
      (cutTag? none r).map fun p => (Symbol.ofText t.inside ++ p.1, p.2) := by
  have hname : ∀ s ∈ Symbol.ofText t.name, s ≠ .char '>' ∧ quote? s = none := by
    intro s hs
    obtain ⟨-, -, hq, hgt, -⟩ := ne_of_mem_name ht hs
    exact ⟨hgt, hq⟩
  rw [ofText_inside, List.append_assoc, cutTag?_append hname, cutTag?_attributes ha, Option.map_map]
  simp only [List.append_assoc]
  rfl

/-! ## What a tag holds -/

/-- The first symbol after a name is not one of a name. -/
theorem takeWhile_name {name : String} (h : isName name = true) {p : Symbol → Bool}
    (hp : ∀ s, isSpace s = false → isChar '=' s = false → p s = true) {r : Piece}
    (hr : ∀ s ∈ r.head?, p s = false) :
    (Symbol.ofText name ++ r).takeWhile p = Symbol.ofText name ∧
      (Symbol.ofText name ++ r).dropWhile p = r := by
  have hname : ∀ s ∈ Symbol.ofText name, p s = true := fun s hs => by
    obtain ⟨hspace, heq, -⟩ := ne_of_mem_name h hs
    exact hp s hspace heq
  rw [List.takeWhile_append_of_pos hname, List.dropWhile_append_of_pos hname]
  rcases r with _ | ⟨s, r⟩
  · simp
  · have hs := hr s rfl
    rw [List.takeWhile_cons_of_neg (by simp [hs]), List.dropWhile_cons_of_neg (by simp [hs])]
    simp

theorem tagName_inside {t : Tag} (ht : isName t.name = true) :
    tagName (Symbol.ofText t.inside) = Symbol.ofText t.name := by
  rw [tagName, ofText_inside]
  refine (takeWhile_name ht (fun s hs _ => by simp [hs]) fun s hs => ?_).1
  rcases hattr : t.attributes with _ | ⟨a, as⟩
  · simp [hattr] at hs
  · rw [hattr, List.flatMap_cons] at hs
    obtain rfl := Option.some.inj hs
    rfl

/-- An attribute is cut off the rest of its tag. -/
theorem cutAttribute_attributePiece {a : String × String} (ha : isName a.1 = true) (r : Piece) :
    cutAttribute (attributePiece a ++ r) =
      .ok (some ⟨Symbol.ofText a.1, Symbol.ofText (escape a.2), r⟩) := by
  obtain ⟨c, cs, hcs⟩ := exists_cons_of_isName ha
  have hname : Symbol.ofText a.1 = .char c :: cs.map .char := by rw [Symbol.ofText, hcs, List.map_cons]
  have hstart : isSpace (.char c) = false :=
    (ne_of_mem_name ha (by rw [hname]; exact List.mem_cons_self)).1
  have hdrop : (attributePiece a ++ r).dropWhile isSpace = .char c :: (cs.map .char ++
      .char '=' :: .char '"' :: (Symbol.ofText (escape a.2) ++ .char '"' :: r)) := by
    rw [attributePiece, List.cons_append, List.dropWhile_cons_of_pos rfl, hname]
    simp [hstart]
  have hends := takeWhile_name ha (p := fun s => !(isChar '=' s || isSpace s))
    (fun s hs he => by simp [hs, he])
    (r := .char '=' :: .char '"' :: (Symbol.ofText (escape a.2) ++ .char '"' :: r))
    fun s hs => by obtain rfl := Option.some.inj hs; rfl
  rw [hname, List.cons_append, List.takeWhile_cons, List.dropWhile_cons] at hends
  have hc : (!(isChar '=' (.char c) || isSpace (.char c))) = true := by
    obtain ⟨hs, he, -⟩ := ne_of_mem_name ha (x := .char c) (by rw [hname]; exact List.mem_cons_self)
    simp [hs, he]
  rw [if_pos hc, if_pos hc] at hends
  obtain ⟨hkey, hafter⟩ := hends
  have hvalue : (Symbol.ofText (escape a.2) ++ .char '"' :: r).takeWhile (fun s => s != .char '"') =
      Symbol.ofText (escape a.2) := by
    rw [List.takeWhile_append_of_pos fun s hs => by simpa using (ne_of_mem_escape hs).2.2,
      List.takeWhile_cons_of_neg (by simp), List.append_nil]
  unfold cutAttribute
  rw [hdrop]
  simp only
  rw [hkey, hafter, List.dropWhile_cons_of_neg (by decide)]
  simp only
  rw [List.dropWhile_cons_of_neg (by decide)]
  simp only
  rw [if_pos (Or.inl trivial), hvalue, List.drop_left, hname]

/-! ### Attributes -/

theorem attributesOf_cons {a : String × String} (ha : isName a.1 = true) {seen : List Piece}
    (hs : Symbol.ofText a.1 ∉ seen) (r : Piece) :
    attributesOf seen (attributePiece a ++ r) = do
      let entry ← (⟨Symbol.ofText a.1, Symbol.ofText (escape a.2), r⟩ : RawAttribute).entry
      let others ← attributesOf (Symbol.ofText a.1 :: seen) r
      return entry.toList ++ others := by
  rw [attributesOf]
  have hcut := cutAttribute_attributePiece ha r
  split
  · rename_i e he
    rw [hcut] at he
    cases he
  · rename_i he
    rw [hcut] at he
    cases he
  · rename_i x he
    rw [hcut] at he
    obtain rfl := Option.some.inj (Except.ok.inj he)
    rw [if_neg hs]

theorem textOf_ofText (s : String) : textOf (Symbol.ofText s) = .ok s := by
  rw [textOf, Symbol.text?_ofText]

/-- The attribute that is read for a written one, unless it declares a namespace. -/
def readAttribute? (a : String × String) : Option (String × String) :=
  if declaresNamespace a.1 then none else some (localName a.1, a.2)

theorem readAttribute?_eq_self {a : String × String} (ha : ':' ∉ a.1.toList) (hx : a.1 ≠ "xmlns") :
    readAttribute? a = some a := by
  have hns : declaresNamespace a.1 = false := by
    have hprefix : a.1.startsWith "xmlns:" = false := by
      rw [String.startsWith_string_eq_false_iff]
      exact fun hp => ha (hp.subset (by decide))
    rw [declaresNamespace, hprefix, Bool.or_false, beq_eq_false_iff_ne]
    exact hx
  rw [readAttribute?, hns, if_neg Bool.false_ne_true, localName_eq_self ha]

theorem entry_ofText (a : String × String) (r : Piece) :
    (⟨Symbol.ofText a.1, Symbol.ofText (escape a.2), r⟩ : RawAttribute).entry =
      .ok (readAttribute? a) := by
  refine Outcome.bind_eq_ok_iff.2 ⟨a.1, textOf_ofText _, ?_⟩
  rw [readAttribute?]
  split
  · rfl
  · refine Outcome.bind_eq_ok_iff.2 ⟨localName a.1, textOf_localPart a.1, ?_⟩
    refine Outcome.bind_eq_ok_iff.2 ⟨escape a.2, textOf_ofText _, ?_⟩
    rw [unescape?_escape]
    rfl

theorem ofText_injective : Function.Injective Symbol.ofText := fun _ _ h =>
  String.toList_injective (List.map_injective_iff.2 (fun _ _ => Symbol.char.inj) h)

/-- The attributes of a tag. -/
theorem attributesOf_flatMap {as : List (String × String)} (ha : ∀ a ∈ as, isName a.1 = true)
    (hn : (as.map Prod.fst).Nodup) {seen : List Piece} (hs : ∀ a ∈ as, Symbol.ofText a.1 ∉ seen) :
    attributesOf seen (as.flatMap attributePiece) = .ok (as.filterMap readAttribute?) := by
  induction as generalizing seen with
  | nil =>
    rw [List.flatMap_nil, attributesOf]
    rfl
  | cons a as ih =>
    obtain ⟨ha, has⟩ := List.forall_mem_cons.1 ha
    obtain ⟨hsa, hsas⟩ := List.forall_mem_cons.1 hs
    obtain ⟨hna, hn⟩ := List.nodup_cons.1 hn
    rw [List.flatMap_cons, attributesOf_cons ha hsa, entry_ofText, ih has hn, List.filterMap_cons]
    · cases readAttribute? a <;> rfl
    · intro b hb hmem
      rcases List.mem_cons.1 hmem with he | hmem
      · refine hna (List.mem_map.2 ⟨b, hb, ?_⟩)
        exact ofText_injective he
      · exact hsas b hb hmem

theorem isName_xmlns : isName "xmlns" = true := by decide

theorem readAttribute?_xmlns (n : String) : readAttribute? ("xmlns", n) = none := by
  rw [readAttribute?, if_pos (by rfl)]

/-- **A start tag taken apart**: its name is what stands after the first colon. -/
theorem Head.ofTag_inside {t : Tag} (ht : isName t.name = true) {as : List (String × String)}
    (ha : attributesOf [] (t.attributes.flatMap attributePiece) = .ok as) (isEmpty : Bool) :
    Head.ofTag (Symbol.ofText t.inside) isEmpty = .ok ⟨localName t.name, as, isEmpty⟩ := by
  unfold Head.ofTag
  simp only
  rw [tagName_inside ht, textOf_localPart, ofText_inside, List.drop_left, ha]
  rfl

end Marshal.Markup
