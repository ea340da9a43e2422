import Marshal.Proofs.Markup.Tags

/-!
# Events of written text

What the lexer finds at the front of a start tag, of an end tag and of an escaped text
(`Lexer.next_opening`, `Lexer.next_closing`, `Lexer.next_escaped`), and the steps that the readers of
content make from one event to the next.
-/

namespace Marshal.Markup

open Text

/-- A start tag. -/
def Tag.opening (t : Tag) : String := "<" ++ t.inside ++ ">"

/-- The tag of an element that holds nothing. -/
def Tag.alone (t : Tag) : String := "<" ++ t.inside ++ "/>"

/-- An end tag. -/
def closing (name : String) : String := "</" ++ name ++ ">"

/-- A tag whose names may be written. -/
def Tag.Named (t : Tag) : Prop := isName t.name = true ∧ ∀ a ∈ t.attributes, isName a.1 = true

theorem ofText_opening (t : Tag) :
    Symbol.ofText t.opening = .char '<' :: (Symbol.ofText t.inside ++ [.char '>']) := by
  rw [Tag.opening, ofText_append, ofText_append]
  rfl

theorem ofText_alone (t : Tag) :
    Symbol.ofText t.alone = .char '<' :: (Symbol.ofText t.inside ++ [.char '/', .char '>']) := by
  rw [Tag.alone, ofText_append, ofText_append]
  rfl

theorem ofText_closing (name : String) :
    Symbol.ofText (closing name) = .char '<' :: .char '/' :: (Symbol.ofText name ++ [.char '>']) := by
  rw [closing, ofText_append, ofText_append]
  rfl

namespace Lexer

variable {rest : Piece} {opened : List Piece} {lx lx' : Lexer} {e : Event}

/-! ## Tags -/

/-- What begins with a name is a start tag. -/
theorem markup_of_name {name : String} (h : isName name = true) (lx : Lexer) (r : Piece) :
    markup lx (Symbol.ofText name ++ r) =
      match cutTag? none (Symbol.ofText name ++ r) with
      | some (inside, rest) => startTag lx inside rest
      | none => fatal lx := by
  obtain ⟨c, cs, hcs⟩ := exists_cons_of_isName h
  have hname : Symbol.ofText name = .char c :: cs.map .char := by
    rw [Symbol.ofText, hcs, List.map_cons]
  obtain ⟨-, -, -, -, hslash, hbang, hquery⟩ :=
    ne_of_mem_name h (x := .char c) (by rw [hname]; exact List.mem_cons_self)
  rw [hname, List.cons_append]
  unfold markup
  split
  · rename_i he
    exact absurd (List.cons.inj he).1 hbang
  · rename_i he
    exact absurd (List.cons.inj he).1 hquery
  · rename_i he
    exact absurd (List.cons.inj he).1 hslash
  · rfl

theorem getLast?_inside {t : Tag} (ht : isName t.name = true) :
    (Symbol.ofText t.inside).getLast? ≠ some (.char '/') := by
  rw [ofText_inside]
  intro h
  rcases List.eq_nil_or_concat t.attributes with ha | ⟨as, a, ha⟩
  · rw [ha, List.flatMap_nil, List.append_nil] at h
    obtain ⟨-, -, -, -, hslash, -⟩ := ne_of_mem_name ht (List.mem_of_getLast? h)
    exact hslash rfl
  · have hlast : Symbol.ofText t.name ++ t.attributes.flatMap attributePiece =
        Symbol.ofText t.name ++ as.flatMap attributePiece ++ (.char ' ' :: (Symbol.ofText a.1 ++
          .char '=' :: .char '"' :: Symbol.ofText (escape a.2))) ++ [.char '"'] := by
      simp [ha, attributePiece]
    rw [hlast, List.getLast?_concat] at h
    cases h

/-- **A start tag** opens its element. -/
theorem next_opening {t : Tag} (ht : t.Named) :
    next ⟨Symbol.ofText t.opening ++ rest, opened⟩ =
      .ok (.start (Symbol.ofText t.inside)) ⟨rest, Symbol.ofText t.name :: opened⟩ := by
  have hcut : cutTag? none (Symbol.ofText t.inside ++ .char '>' :: rest) =
      some (Symbol.ofText t.inside, rest) := by
    rw [cutTag?_inside ht.1 ht.2, cutTag?, if_pos rfl, Option.map_some, List.append_nil]
  have hmarkup := fun lx => markup_of_name ht.1 lx
    (t.attributes.flatMap attributePiece ++ .char '>' :: rest)
  simp only [← List.append_assoc, ← ofText_inside] at hmarkup
  rw [ofText_opening, List.cons_append, List.append_assoc, List.singleton_append, next]
  dsimp only
  rw [if_pos rfl, hmarkup, hcut]
  dsimp only
  rw [startTag, if_neg (getLast?_inside ht.1), tagName_inside ht.1]

/-- The tag of an element that holds nothing leaves nothing open. -/
theorem next_alone {t : Tag} (ht : t.Named) :
    next ⟨Symbol.ofText t.alone ++ rest, opened⟩ =
      .ok (.empty (Symbol.ofText t.inside)) ⟨rest, opened⟩ := by
  have hcut : cutTag? none (Symbol.ofText t.inside ++ .char '/' :: .char '>' :: rest) =
      some (Symbol.ofText t.inside ++ [.char '/'], rest) := by
    rw [cutTag?_inside ht.1 ht.2, cutTag?, if_neg (by decide), quote?, if_neg (by decide),
      if_neg (by decide), cutTag?, if_pos rfl]
    rfl
  have hmarkup := fun lx => markup_of_name ht.1 lx
    (t.attributes.flatMap attributePiece ++ .char '/' :: .char '>' :: rest)
  simp only [← List.append_assoc, ← ofText_inside] at hmarkup
  rw [ofText_alone, List.cons_append, List.append_assoc, List.cons_append, List.singleton_append,
    next]
  dsimp only
  rw [if_pos rfl, hmarkup, hcut]
  dsimp only
  rw [startTag, if_pos List.getLast?_concat, List.dropLast_concat]

/-- **An end tag** closes its element. -/
theorem next_closing {name : String} (h : isName name = true) :
    next ⟨Symbol.ofText (closing name) ++ rest, Symbol.ofText name :: opened⟩ =
      .ok .close ⟨rest, opened⟩ := by
  have hcut : cutTag? none (Symbol.ofText name ++ .char '>' :: rest) =
      some (Symbol.ofText name, rest) := by
    rw [cutTag?_append fun s hs => ?_, cutTag?, if_pos rfl, Option.map_some, List.append_nil]
    obtain ⟨-, -, hq, hgt, -⟩ := ne_of_mem_name h hs
    exact ⟨hgt, hq⟩
  have hspace : dropTrailingSpace (Symbol.ofText name) = Symbol.ofText name := by
    obtain ⟨c, cs, hcs⟩ := exists_cons_of_isName h
    have hrev : (Symbol.ofText name).reverse.dropWhile isSpace = (Symbol.ofText name).reverse := by
      rcases hr : (Symbol.ofText name).reverse with _ | ⟨x, xs⟩
      · rfl
      · have hx : x ∈ Symbol.ofText name := by
          rw [← List.mem_reverse, hr]
          exact List.mem_cons_self
        rw [List.dropWhile_cons_of_neg (by simp [(ne_of_mem_name h hx).1])]
    unfold dropTrailingSpace
    dsimp only
    rw [hrev, List.reverse_reverse, ite_self]
  rw [ofText_closing, List.cons_append, List.cons_append, List.append_assoc, List.singleton_append,
    next]
  dsimp only
  rw [if_pos rfl, markup, hcut]
  dsimp only
  rw [endTag]
  dsimp only
  rw [if_pos hspace]

/-! ## Texts -/

/-- Characters as they are written in an element. -/
def escaped (cs : List Char) : Piece := (cs.flatMap escapeChar).map Symbol.char

theorem ofText_escape (s : String) : Symbol.ofText (escape s) = escaped s.toList := by
  rw [Symbol.ofText, escape, String.toList_ofList, escaped]

theorem escaped_cons (c : Char) (cs : List Char) :
    escaped (c :: cs) = (escapeChar c).map Symbol.char ++ escaped cs := by
  rw [escaped, List.flatMap_cons, List.map_append, escaped]

/-- What follows a text begins with a tag. -/
def BeginsTag (r : Piece) : Prop := r.head? = some (.char '<')

/-- A text runs up to the next reference, or to its end. -/
theorem takeWhile_escaped (cs : List Char) {r : Piece} (hr : BeginsTag r) :
    ∃ as bs, cs = as ++ bs ∧
      (escaped cs ++ r).takeWhile (fun s => !(isChar '<' s || isChar '&' s)) =
        as.map Symbol.char ∧ (escaped cs ++ r).drop as.length = escaped bs ++ r := by
  induction cs with
  | nil =>
    refine ⟨[], [], rfl, ?_, rfl⟩
    rcases r with _ | ⟨x, r⟩
    · cases hr
    · obtain rfl := Option.some.inj hr
      rfl
  | cons c cs ih =>
    rw [escaped_cons]
    rcases escapeChar_cases c with ⟨he, hlt, -, hamp, -, -⟩ | ⟨name, he, -⟩
    · obtain ⟨as, bs, rfl, htake, hdrop⟩ := ih
      refine ⟨c :: as, bs, rfl, ?_, ?_⟩
      · rw [he, List.map_singleton, List.append_assoc, List.singleton_append,
          List.takeWhile_cons_of_pos (by simp [isChar, hlt, hamp]), htake, List.map_cons]
      · rw [he, List.map_singleton, List.append_assoc, List.singleton_append, List.length_cons,
          List.drop_succ_cons, hdrop]
    · refine ⟨[], c :: cs, rfl, ?_, ?_⟩
      · rw [he]
        rfl
      · rw [escaped_cons]
        rfl

/-- **The first event of an escaped text** is some of the text. -/
theorem next_escaped {cs : List Char} (hcs : cs ≠ []) {r : Piece} (hr : BeginsTag r)
    (opened : List Piece) :
    ∃ as bs e, cs = as ++ bs ∧ as ≠ [] ∧ textOfEvent e = .ok (some (String.ofList as)) ∧
      next ⟨escaped cs ++ r, opened⟩ = .ok e ⟨escaped bs ++ r, opened⟩ := by
  obtain ⟨c, cs, rfl⟩ := List.exists_cons_of_ne_nil hcs
  rcases escapeChar_cases c with ⟨he, hlt, -, hamp, -, -⟩ | ⟨name, he, href, hname⟩
  · -- up to the next reference or tag
    obtain ⟨as, bs, rfl, htake, hdrop⟩ := takeWhile_escaped cs hr
    refine ⟨c :: as, bs, .text (Symbol.ofText (String.ofList (c :: as))), rfl, by simp, ?_, ?_⟩
    · rw [textOfEvent, textOf_ofText]
      rfl
    · rw [escaped_cons, he, List.map_singleton, List.append_assoc, List.singleton_append, next]
      dsimp only
      rw [if_neg (by simpa using hlt), if_neg (by simpa using hamp), htake, List.length_map, hdrop,
        Symbol.ofText, String.toList_ofList, List.map_cons]
  · -- a reference
    refine ⟨[c], cs, .reference (name.map .char), rfl, by simp, ?_, ?_⟩
    · rw [textOfEvent, referenceText_map href]
      rfl
    · have hbody : (name.map Symbol.char ++ .char ';' :: (escaped cs ++ r)).takeWhile
          (fun s => !(isChar ';' s || isChar '&' s || isChar '<' s)) = name.map .char := by
        rw [List.takeWhile_append_of_pos, List.takeWhile_cons_of_neg (by decide), List.append_nil]
        intro x hx
        obtain ⟨d, hd, rfl⟩ := List.mem_map.1 hx
        have := hname d hd
        simp only [List.mem_cons, not_or] at this
        simp [isChar, this.1, this.2.1, this.2.2.1]
      rw [escaped_cons, he, List.map_cons, List.map_append, List.map_singleton, List.cons_append,
        List.append_assoc, List.cons_append, List.append_assoc, List.singleton_append,
        List.cons_append, next]
      dsimp only
      rw [if_neg (by decide), if_pos rfl, ampersand]
      dsimp only
      rw [hbody, List.drop_left]
      rfl

/-! ## From event to event -/

theorem child_of_start {tag : Piece} {head : Head} (h : next lx = .ok (.start tag) lx')
    (hh : Head.ofTag tag false = .ok head) : child lx = .ok (some head) lx' := by
  rw [child]
  grind [headAt]

theorem child_of_empty {tag : Piece} {head : Head} (h : next lx = .ok (.empty tag) lx')
    (hh : Head.ofTag tag true = .ok head) : child lx = .ok (some head) lx' := by
  rw [child]
  grind [headAt]

theorem child_of_close (h : next lx = .ok .close lx') : child lx = .ok none lx' := by
  rw [child]
  grind

theorem skip_of_start {tag : Piece} (h : next lx = .ok (.start tag) lx') (depth : Nat) :
    skip depth lx = skip (depth + 1) lx' := by
  rw [skip]
  grind

theorem skip_of_empty {tag : Piece} (h : next lx = .ok (.empty tag) lx') (depth : Nat) :
    skip depth lx = skip depth lx' := by
  rw [skip]
  grind

theorem skip_succ_of_close (h : next lx = .ok .close lx') (depth : Nat) :
    skip (depth + 1) lx = skip depth lx' := by
  rw [skip]
  grind

theorem skip_zero_of_close (h : next lx = .ok .close lx') : skip 0 lx = .ok () lx' := by
  rw [skip]
  grind

theorem text_of_text {s : String} (h : next lx = .ok e lx') (hs : textOfEvent e = .ok (some s))
    (before : String) : text before lx = text (before ++ s) lx' := by
  rw [text]
  split
  · simp_all
  · rename_i he
    obtain ⟨rfl, rfl⟩ := EStateM.Result.ok.inj (h.symm.trans he)
    split <;> simp_all

theorem text_of_error {f : DecodeError} (h : next lx = .ok e lx') (hs : textOfEvent e = .error f)
    (before : String) : text before lx = .error f lx' := by
  rw [text]
  split
  · simp_all
  · rename_i he
    obtain ⟨rfl, rfl⟩ := EStateM.Result.ok.inj (h.symm.trans he)
    split <;> simp_all

theorem text_of_close (h : next lx = .ok .close lx') (before : String) :
    text before lx = .ok before lx' := by
  rw [text]
  split
  · simp_all
  · rename_i he
    obtain ⟨rfl, rfl⟩ := EStateM.Result.ok.inj (h.symm.trans he)
    rfl

end Lexer

end Marshal.Markup
