import Marshal.Text.Symbol
import Marshal.Wire.Source

/-!
# Markup events

A document is pulled apart event by event, and nothing is looked at before it is reached. The lexer
knows the names of the elements that are open, so that an end tag must match. A construct that is not
ended, or that is none of the known ones, is a fault that takes the rest of the document. After an end
tag that does not match, a reference that is not ended and a document type declaration without a name
the document goes on. `Lexer.length_next_lt` says that every event but the last takes something from
the document.
-/

namespace Marshal.Markup

open Text

/-- A stretch of a document. -/
abbrev Piece := List Symbol

/-- Whether a symbol is a given character. -/
def isChar (c : Char) (s : Symbol) : Bool := s == .char c

/-- Whether a symbol separates the parts of a tag. -/
def isSpace (s : Symbol) : Bool :=
  isChar ' ' s || isChar '\t' s || isChar '\n' s || isChar '\r' s

/-- What a lexer finds. A tag is given by what stands between its brackets, without the slash of a
tag that both opens and closes. -/
inductive Event where
  | start (tag : Piece)
  | empty (tag : Piece)
  | close
  | text (piece : Piece)
  | literal (piece : Piece)
  | reference (piece : Piece)
  | ignored
  | finish
deriving DecidableEq, Repr

/-- What is left of a document, and the names of the open elements, the innermost first. -/
structure Lexer where
  rest : Piece
  opened : List Piece
deriving DecidableEq, Repr

/-- The lexer at the start of a document. A byte order mark in front is dropped. -/
def Lexer.ofSymbols (symbols : Piece) : Lexer :=
  match symbols with
  | .char c :: rest => if c.toNat = 0xFEFF then ⟨rest, []⟩ else ⟨symbols, []⟩
  | _ => ⟨symbols, []⟩

/-! ## Cutting constructs off the front -/

/-- Whether a piece begins with a text. -/
def begins (text : String) (piece : Piece) : Bool := (Symbol.ofText text).isPrefixOf piece

/-- The quote that a symbol opens. -/
def quote? (s : Symbol) : Option Char :=
  if s = .char '"' then some '"' else if s = .char '\'' then some '\'' else none

/-- Cuts a piece off at the first `>` outside quotes. -/
def cutTag? : Option Char → Piece → Option (Piece × Piece)
  | _, [] => none
  | none, s :: rest =>
    if s = .char '>' then some ([], rest)
    else (cutTag? (quote? s) rest).map fun p => (s :: p.1, p.2)
  | some q, s :: rest =>
    (cutTag? (if s = .char q then none else some q) rest).map fun p => (s :: p.1, p.2)

/-- Cuts a piece off at the first occurrence of a mark, which is dropped. -/
def cutAt? (mark : List Char) : Piece → Option (Piece × Piece)
  | [] => none
  | s :: rest =>
    if (mark.map Symbol.char).isPrefixOf (s :: rest) then
      some ([], (s :: rest).drop mark.length)
    else (cutAt? mark rest).map fun p => (s :: p.1, p.2)

theorem length_cutTag?_lt {q : Option Char} {piece a b : Piece} (h : cutTag? q piece = some (a, b)) :
    b.length < piece.length := by
  induction piece generalizing q a with
  | nil => simp [cutTag?] at h
  | cons s rest ih =>
    cases q with
    | none =>
      rw [cutTag?] at h
      split at h
      · cases h
        simp
      · obtain ⟨p, hp, e⟩ := Option.map_eq_some_iff.1 h
        cases e
        exact Nat.lt_succ_of_lt (ih hp)
    | some c =>
      rw [cutTag?] at h
      obtain ⟨p, hp, e⟩ := Option.map_eq_some_iff.1 h
      cases e
      exact Nat.lt_succ_of_lt (ih hp)

theorem length_cutAt?_le {mark : List Char} {piece a b : Piece}
    (h : cutAt? mark piece = some (a, b)) : b.length ≤ piece.length := by
  induction piece generalizing a with
  | nil => simp [cutAt?] at h
  | cons s rest ih =>
    rw [cutAt?] at h
    split at h
    · cases h
      simp
    · obtain ⟨p, hp, e⟩ := Option.map_eq_some_iff.1 h
      cases e
      exact Nat.le_succ_of_le (ih hp)

/-! ## Document type declarations -/

/-- What is left after the first occurrence of a mark. -/
def past? (mark : String) (piece : Piece) : Option Piece := (cutAt? mark.toList piece).map Prod.snd

/-- The declarations of an internal subset in which a quoted text may hold a `>`. -/
def quotingDeclarations : List String := ["!ATTLIST", "!ENTITY", "!NOTATION"]

/-- Passes a construct of an internal subset, given what stands after its `<`. What is none of the
known constructs ends at the first `>`, like the declaration of an element. -/
def passDeclaration? (after : Piece) : Option Piece :=
  if begins "!--" after then past? "-->" (after.drop 3)
  else if begins "?" after then past? "?>" (after.drop 1)
  else if quotingDeclarations.any fun word => begins word after then
    (cutTag? none after).map Prod.snd
  else past? ">" after

theorem length_past?_le {mark : String} {piece rest : Piece} (h : past? mark piece = some rest) :
    rest.length ≤ piece.length := by
  obtain ⟨p, hp, rfl⟩ := Option.map_eq_some_iff.1 h
  exact length_cutAt?_le hp

theorem length_passDeclaration?_le {after rest : Piece} (h : passDeclaration? after = some rest) :
    rest.length ≤ after.length := by
  unfold passDeclaration? at h
  split at h
  · exact Nat.le_trans (length_past?_le h) (List.drop_suffix 3 after).length_le
  · split at h
    · exact Nat.le_trans (length_past?_le h) (List.drop_suffix 1 after).length_le
    · split at h
      · obtain ⟨p, hp, rfl⟩ := Option.map_eq_some_iff.1 h
        exact Nat.le_of_lt (length_cutTag?_lt hp)
      · exact length_past?_le h

/-- Passes what is left of an internal subset, and the declaration around it. -/
def passSubset? : Piece → Option Piece
  | [] => none
  | s :: rest =>
    if s = .char ']' then past? ">" rest
    else if s = .char '<' then
      match h : passDeclaration? rest with
      | some rest' =>
        have := length_passDeclaration?_le h
        passSubset? rest'
      | none => none
    else passSubset? rest
termination_by piece => piece.length

/-- Passes what is left of a document type declaration, its internal subset included. Quotes only
count in front of the subset. -/
def passDoctype? : Option Char → Piece → Option Piece
  | _, [] => none
  | none, s :: rest =>
    if s = .char '>' then some rest
    else if s = .char '[' then passSubset? rest
    else passDoctype? (quote? s) rest
  | some q, s :: rest => passDoctype? (if s = .char q then none else some q) rest

theorem length_passSubset?_le {piece rest : Piece} (h : passSubset? piece = some rest) :
    rest.length ≤ piece.length := by
  fun_induction passSubset? piece with
  | case1 => simp at h
  | case2 => exact Nat.le_succ_of_le (length_past?_le h)
  | case3 _ _ _ hd _ ih =>
    exact Nat.le_succ_of_le (Nat.le_trans (ih h) hd)
  | case4 => simp at h
  | case5 _ _ _ _ ih => exact Nat.le_succ_of_le (ih h)

theorem length_passDoctype?_le {quote : Option Char} {piece rest : Piece}
    (h : passDoctype? quote piece = some rest) : rest.length ≤ piece.length := by
  fun_induction passDoctype? quote piece with
  | case1 => simp at h
  | case2 =>
    cases h
    exact Nat.le_succ _
  | case3 => exact Nat.le_succ_of_le (length_passSubset?_le h)
  | case4 _ _ _ _ ih => exact Nat.le_succ_of_le (ih h)
  | case5 _ _ _ ih => exact Nat.le_succ_of_le (ih h)

/-! ## Events -/

/-- A step of the lexer. -/
abbrev Lexed (α : Type) := EStateM.Result DecodeError Lexer α

/-- The name of a tag: what stands before the first blank. -/
def tagName (tag : Piece) : Piece := tag.takeWhile fun s => !isSpace s

/-- A piece without the blanks at its end, unless it is all blank. -/
def dropTrailingSpace (piece : Piece) : Piece :=
  let kept := (piece.reverse.dropWhile isSpace).reverse
  if kept = [] then piece else kept

namespace Lexer

/-- A fault that ends the document. -/
def fatal (lx : Lexer) : Lexed Event := .error (.malformed .markup) { lx with rest := [] }

/-- A fault after which the document goes on. -/
def fault (lx : Lexer) : Lexed Event := .error (.malformed .markup) lx

/-- The event of an end tag. -/
def endTag (lx : Lexer) (inside rest : Piece) : Lexed Event :=
  match lx.opened with
  | name :: opened =>
    if dropTrailingSpace inside = name then .ok .close ⟨rest, opened⟩ else fault ⟨rest, opened⟩
  | [] => fault ⟨rest, []⟩

/-- The event of a start tag. -/
def startTag (lx : Lexer) (inside rest : Piece) : Lexed Event :=
  if inside.getLast? = some (.char '/') then .ok (.empty inside.dropLast) { lx with rest }
  else .ok (.start inside) ⟨rest, tagName inside :: lx.opened⟩

/-- The event of a construct whose inside has been cut off, if it has an end. -/
def upTo (lx : Lexer) (cut : Option (Piece × Piece)) (f : Piece → Event) : Lexed Event :=
  match cut with
  | some (inside, rest) => .ok (f inside) { lx with rest }
  | none => fatal lx

/-- The event of a construct that stands between an opening and a mark. -/
def enclosed (opening mark : String) (f : Piece → Event) (lx : Lexer) (after : Piece) : Lexed Event :=
  if begins opening after then upTo lx (cutAt? mark.toList (after.drop opening.toList.length)) f
  else fatal lx

/-- The event of a comment. -/
def comment : Lexer → Piece → Lexed Event := enclosed "--" "-->" fun _ => .ignored

/-- The event of a section of literal text. -/
def literalSection : Lexer → Piece → Lexed Event := enclosed "[CDATA[" "]]>" .literal

/-- Whether a piece begins with the word of a document type declaration, in any case. -/
def beginsDoctype (after : Piece) : Bool :=
  let word := (after.take 7).map fun
    | .char c => c.toLower
    | .stray _ => ' '
  word == "doctype".toList

/-- Whether a document type declaration has no name. -/
def isNameless (after : Piece) : Bool := begins ">" ((after.drop 7).dropWhile isSpace)

/-- The event of a document type declaration. -/
def doctype (lx : Lexer) (after : Piece) : Lexed Event :=
  if beginsDoctype after then
    match passDoctype? none after with
    | some rest => if isNameless after then fault { lx with rest } else .ok .ignored { lx with rest }
    | none => fatal lx
  else fatal lx

/-- The event of what begins with an exclamation mark, given what stands after it. -/
def declaration (lx : Lexer) (after : Piece) : Lexed Event :=
  match after with
  | .char '-' :: _ => comment lx after
  | .char '[' :: _ => literalSection lx after
  | _ => doctype lx after

/-- The event of a processing instruction, given what stands after the question mark. -/
def instruction (lx : Lexer) (after : Piece) : Lexed Event :=
  if begins ">" after then fatal lx else upTo lx (cutAt? "?>".toList after) fun _ => .ignored

/-- The event that begins with `<`, given what stands after it. -/
def markup (lx : Lexer) (after : Piece) : Lexed Event :=
  match after with
  | .char '!' :: after => declaration lx after
  | .char '?' :: after => instruction lx after
  | .char '/' :: after =>
    match cutTag? none after with
    | some (inside, rest) => endTag lx inside rest
    | none => fatal lx
  | after =>
    match cutTag? none after with
    | some (inside, rest) => startTag lx inside rest
    | none => fatal lx

/-- The event that begins with `&`, given what stands after it. -/
def ampersand (lx : Lexer) (after : Piece) : Lexed Event :=
  let body := after.takeWhile fun s => !(isChar ';' s || isChar '&' s || isChar '<' s)
  match after.drop body.length with
  | .char ';' :: rest => .ok (.reference body) { lx with rest }
  | rest => fault { lx with rest }

/-- The next event. -/
def next (lx : Lexer) : Lexed Event :=
  match lx.rest with
  | [] => .ok .finish lx
  | s :: after =>
    if s = .char '<' then markup lx after
    else if s = .char '&' then ampersand lx after
    else
      let more := after.takeWhile fun s => !(isChar '<' s || isChar '&' s)
      .ok (.text (s :: more)) { lx with rest := after.drop more.length }

theorem rest_upTo {lx lx' : Lexer} {cut : Option (Piece × Piece)} {f : Piece → Event} {e : Event}
    (h : upTo lx cut f = .ok e lx') : ∃ inside, cut = some (inside, lx'.rest) := by
  unfold upTo at h
  split at h
  · cases h
    exact ⟨_, rfl⟩
  · simp [fatal] at h

theorem length_enclosed_le {opening mark : String} {f : Piece → Event} {lx lx' : Lexer}
    {after : Piece} {e : Event} (h : enclosed opening mark f lx after = .ok e lx') :
    lx'.rest.length ≤ after.length := by
  unfold enclosed at h
  split at h
  · obtain ⟨_, hc⟩ := rest_upTo h
    exact Nat.le_trans (length_cutAt?_le hc) (List.drop_suffix _ after).length_le
  · simp [fatal] at h

theorem length_doctype_le {lx lx' : Lexer} {after : Piece} {e : Event}
    (h : doctype lx after = .ok e lx') : lx'.rest.length ≤ after.length := by
  unfold doctype at h
  split at h
  · split at h
    · rename_i hp
      split at h
      · simp [fault] at h
      · cases h
        exact length_passDoctype?_le hp
    · simp [fatal] at h
  · simp [fatal] at h

theorem length_declaration_le {lx lx' : Lexer} {after : Piece} {e : Event}
    (h : declaration lx after = .ok e lx') : lx'.rest.length ≤ after.length := by
  unfold declaration at h
  split at h
  · exact length_enclosed_le h
  · exact length_enclosed_le h
  · exact length_doctype_le h

theorem length_markup_le {lx lx' : Lexer} {after : Piece} {e : Event}
    (h : markup lx after = .ok e lx') : lx'.rest.length ≤ after.length := by
  unfold markup at h
  split at h
  · exact Nat.le_succ_of_le (length_declaration_le h)
  · unfold instruction at h
    split at h
    · simp [fatal] at h
    · obtain ⟨_, hc⟩ := rest_upTo h
      exact Nat.le_succ_of_le (length_cutAt?_le hc)
  · split at h
    · rename_i hc
      have := length_cutTag?_lt hc
      unfold endTag at h
      split at h
      · split at h
        · cases h
          simp only [List.length_cons]
          omega
        · simp [fault] at h
      · simp [fault] at h
    · simp [fatal] at h
  · split at h
    · rename_i hc
      have := length_cutTag?_lt hc
      unfold startTag at h
      split at h <;> cases h <;> simp only <;> omega
    · simp [fatal] at h

/-- Every event but the last takes something from the document. -/
theorem length_next_lt {lx lx' : Lexer} {e : Event} (h : next lx = .ok e lx') (he : e ≠ .finish) :
    lx'.rest.length < lx.rest.length := by
  unfold next at h
  split at h
  · cases h
    exact absurd rfl he
  · rename_i s after hr
    rw [hr]
    split at h
    · exact Nat.lt_succ_of_le (length_markup_le h)
    · split at h
      · unfold ampersand at h
        simp only at h
        split at h
        · rename_i hd
          cases h
          have := congrArg List.length hd
          simp only [List.length_drop, List.length_cons] at this
          simp only [List.length_cons]
          omega
        · simp [fault] at h
      · cases h
        simp only [List.length_drop, List.length_cons]
        omega

end Lexer

end Marshal.Markup
