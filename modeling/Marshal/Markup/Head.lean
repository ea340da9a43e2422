import Marshal.Markup.Escape
import Marshal.Markup.Lexer

/-!
# Start tags

A start tag is taken apart when its element is handed out: the name without its prefix, and the
attributes in order, without namespace declarations. Attributes need no blank between them, but each
needs a quoted value, and none may be repeated.
-/

namespace Marshal.Markup

open Text

/-- The head of an element. -/
structure Head where
  name : String
  attributes : List (String × String)
  isEmpty : Bool
deriving DecidableEq, Repr

/-- An attribute as it stands in a tag, and what follows it. -/
structure RawAttribute where
  key : Piece
  value : Piece
  rest : Piece

/-- What stands after the first colon of a name, or the whole name. -/
def localPart (name : Piece) : Piece :=
  match name.dropWhile fun s => !isChar ':' s with
  | _ :: rest => rest
  | [] => name

/-- The text of a piece. -/
def textOf (piece : Piece) : Except DecodeError String :=
  match Symbol.text? piece with
  | some s => .ok s
  | none => .error (.malformed .text)

/-- Cuts the next attribute off; `none` at the end of the tag. -/
def cutAttribute (piece : Piece) : Except DecodeError (Option RawAttribute) :=
  match piece.dropWhile isSpace with
  | [] => .ok none
  | s :: more =>
    let ends (s : Symbol) : Bool := isChar '=' s || isSpace s
    let key := s :: more.takeWhile fun s => !ends s
    match (more.dropWhile fun s => !ends s).dropWhile isSpace with
    | .char '=' :: after =>
      match after.dropWhile isSpace with
      | q :: body =>
        if q = .char '"' ∨ q = .char '\'' then
          let value := body.takeWhile fun s => s != q
          match body.drop value.length with
          | _ :: rest => .ok (some ⟨key, value, rest⟩)
          | [] => .error (.malformed .attribute)
        else .error (.malformed .attribute)
      | [] => .error (.malformed .attribute)
    | _ => .error (.malformed .attribute)

theorem length_dropWhile_le {α : Type} (p : α → Bool) (l : List α) :
    (l.dropWhile p).length ≤ l.length :=
  (List.dropWhile_suffix p).length_le

theorem length_rest_cutAttribute_lt {piece : Piece} {a : RawAttribute}
    (h : cutAttribute piece = .ok (some a)) : a.rest.length < piece.length := by
  unfold cutAttribute at h
  split at h
  · simp at h
  · rename_i s more hs
    have h₁ := length_dropWhile_le isSpace piece
    rw [hs, List.length_cons] at h₁
    simp only at h
    split at h
    · rename_i after ha
      have h₂ := length_dropWhile_le isSpace (more.dropWhile fun s => !(isChar '=' s || isSpace s))
      have h₃ := length_dropWhile_le (fun s => !(isChar '=' s || isSpace s)) more
      rw [ha, List.length_cons] at h₂
      split at h
      · rename_i q body hb
        have h₄ := length_dropWhile_le isSpace after
        rw [hb, List.length_cons] at h₄
        split at h
        · split at h
          · rename_i c rest hr
            cases h
            have h₅ := congrArg List.length hr
            simp only [List.length_drop, List.length_cons] at h₅
            simp only
            omega
          · simp at h
        · simp at h
      · simp at h
    · simp at h

/-- Whether an attribute declares a namespace. -/
def declaresNamespace (key : String) : Bool := key == "xmlns" || key.startsWith "xmlns:"

/-- The attribute that a raw one stands for, unless it declares a namespace. -/
def RawAttribute.entry (a : RawAttribute) : Except DecodeError (Option (String × String)) := do
  let key ← textOf a.key
  if declaresNamespace key then return none
  let name ← textOf (localPart a.key)
  let raw ← textOf a.value
  match unescape? raw with
  | some value => return some (name, value)
  | none => throw (.malformed .text)

/-- The attributes in a piece of a tag; `seen` holds the full names passed before. -/
def attributesOf (seen : List Piece) (piece : Piece) : Except DecodeError (List (String × String)) :=
  match h : cutAttribute piece with
  | .error e => .error e
  | .ok none => .ok []
  | .ok (some a) =>
    if a.key ∈ seen then .error (.malformed .attribute)
    else do
      have := length_rest_cutAttribute_lt h
      let entry ← a.entry
      let others ← attributesOf (a.key :: seen) a.rest
      return entry.toList ++ others
termination_by piece.length

/-- The head of the element with a tag. -/
def Head.ofTag (tag : Piece) (isEmpty : Bool) : Except DecodeError Head := do
  let full := tagName tag
  let name ← textOf (localPart full)
  let attributes ← attributesOf [] (tag.drop full.length)
  return { name, attributes, isEmpty }

end Marshal.Markup
