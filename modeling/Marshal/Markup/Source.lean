import Marshal.Markup.Head

/-!
# Reading from markup

The cursor holds the head of the element about to be read, or the value of an attribute, and the
content of an element is pulled only when it is asked for. Nothing after the end of the root is ever
looked at. The structures that have been entered form a stack, the innermost first.
-/

namespace Marshal.Markup

open Text

/-! ## Content of elements -/

namespace Lexer

/-- The head of an element whose tag has just been passed. -/
def headAt (lx : Lexer) (tag : Piece) (isEmpty : Bool) : Lexed Head :=
  match Head.ofTag tag isEmpty with
  | .ok head => .ok head lx
  | .error e => .error e lx

/-- Moves to the first element of the document, past whatever stands before it. -/
def root (lx : Lexer) : Lexed Head :=
  match h : next lx with
  | .error e lx' => .error e lx'
  | .ok e lx' =>
    match e with
    | .start tag => headAt lx' tag false
    | .empty tag => headAt lx' tag true
    | .finish => .error (.malformed .missingRoot) lx'
    | .text _ | .literal _ | .reference _ | .ignored | .close =>
      have := length_next_lt h (by simp)
      root lx'
termination_by lx.rest.length

/-- Moves to the next child of the current element, or past its end tag. -/
def child (lx : Lexer) : Lexed (Option Head) :=
  match h : next lx with
  | .error e lx' => .error e lx'
  | .ok e lx' =>
    match e with
    | .start tag =>
      match headAt lx' tag false with
      | .ok head lx' => .ok (some head) lx'
      | .error e lx' => .error e lx'
    | .empty tag =>
      match headAt lx' tag true with
      | .ok head lx' => .ok (some head) lx'
      | .error e lx' => .error e lx'
    | .close => .ok none lx'
    | .finish => .error (.malformed (.truncated .insideElement)) lx'
    | .text _ | .literal _ | .reference _ | .ignored =>
      have := length_next_lt h (by simp)
      child lx'
termination_by lx.rest.length

/-- Moves past the end tags of the current element and of `depth` elements around it. -/
def skip (depth : Nat) (lx : Lexer) : Lexed Unit :=
  match h : next lx with
  | .error e lx' => .error e lx'
  | .ok e lx' =>
    match e with
    | .start _ =>
      have := length_next_lt h (by simp)
      skip (depth + 1) lx'
    | .close =>
      match depth with
      | 0 => .ok () lx'
      | depth + 1 =>
        have := length_next_lt h (by simp)
        skip depth lx'
    | .finish => .error (.malformed (.truncated .skippingElement)) lx'
    | .empty _ | .text _ | .literal _ | .reference _ | .ignored =>
      have := length_next_lt h (by simp)
      skip depth lx'
termination_by lx.rest.length

/-- The text that a reference in an element stands for. -/
def referenceText (body : Piece) : Except DecodeError String :=
  match Symbol.chars? body with
  | some ('#' :: digits) =>
    match numeric? digits with
    | some c => .ok (String.singleton c)
    | none => .error (.malformed .markup)
  | some name =>
    match named? (String.ofList name) with
    | some c => .ok (String.singleton c)
    | none => .error (.malformed (.unknownReference (String.ofList name)))
  | none => .error (.malformed .markup)

/-- The text an event adds to the content of an element; `none` at the end tag. -/
def textOfEvent : Event → Except DecodeError (Option String)
  | .text piece => (textOf piece).map some
  | .literal piece => (textOf piece).map some
  | .reference body => (referenceText body).map some
  | .start tag => .error (.malformed (.nestedElement (Symbol.lossyText (localPart (tagName tag)))))
  | .empty tag => .error (.malformed (.nestedElement (Symbol.lossyText (localPart (tagName tag)))))
  | .finish => .error (.malformed (.truncated .readingText))
  | .close => .ok none
  | .ignored => .ok (some "")

theorem ne_finish_of_textOfEvent {e : Event} {r : Option String} (h : textOfEvent e = .ok r) :
    e ≠ .finish := by
  rintro rfl
  simp [textOfEvent] at h

/-- The text of the current element, which may hold no other, after `before`. -/
def text (before : String) (lx : Lexer) : Lexed String :=
  match h : next lx with
  | .error e lx' => .error e lx'
  | .ok e lx' =>
    match he : textOfEvent e with
    | .error f => .error f lx'
    | .ok none => .ok before lx'
    | .ok (some more) =>
      have := length_next_lt h (ne_finish_of_textOfEvent he)
      text (before ++ more) lx'
termination_by lx.rest.length

/-- Moves past an element whose head has been passed. -/
def skipHead (head : Head) (lx : Lexer) : Lexed Unit :=
  if head.isEmpty then .ok () lx else skip 0 lx

/-- The text of an element whose head has been passed. -/
def headText (head : Head) (lx : Lexer) : Lexed String :=
  if head.isEmpty then .ok "" lx else text "" lx

theorem length_headAt {lx lx' : Lexer} {tag : Piece} {b : Bool} {head : Head}
    (h : headAt lx tag b = .ok head lx') : lx' = lx := by
  unfold headAt at h
  split at h <;> cases h
  rfl

theorem length_child_lt {lx lx' : Lexer} {r : Option Head} (h : child lx = .ok r lx') :
    lx'.rest.length < lx.rest.length := by
  fun_induction child lx
  all_goals first
    | (simp at h; done)
    | (cases h; exact length_next_lt ‹_› (by simp))
    | (rename_i ih; exact Nat.lt_trans (ih h) ‹_›)
    | (rename_i hm _
       cases h
       rw [length_headAt hm]
       exact length_next_lt ‹_› (by simp))

theorem length_skip_lt {depth : Nat} {lx lx' : Lexer} (h : skip depth lx = .ok () lx') :
    lx'.rest.length < lx.rest.length := by
  fun_induction skip depth lx
  all_goals first
    | (simp at h; done)
    | (cases h; exact length_next_lt ‹_› (by simp))
    | (rename_i ih; exact Nat.lt_trans (ih h) (length_next_lt ‹_› (by simp)))

theorem length_skipHead_le {head : Head} {lx lx' : Lexer} (h : skipHead head lx = .ok () lx') :
    lx'.rest.length ≤ lx.rest.length := by
  unfold skipHead at h
  split at h
  · cases h
    exact Nat.le_refl _
  · exact Nat.le_of_lt (length_skip_lt h)

/-- The text of the first child with a name, whatever stands before it. -/
def childText? (name : String) (lx : Lexer) : Lexed (Option String) :=
  match h : child lx with
  | .error e lx' => .error e lx'
  | .ok none lx' => .ok none lx'
  | .ok (some head) lx' =>
    if head.name = name then
      match headText head lx' with
      | .ok s lx' => .ok (some s) lx'
      | .error e lx' => .error e lx'
    else
      match hs : skipHead head lx' with
      | .ok () lx'' =>
        have := Nat.lt_of_le_of_lt (length_skipHead_le hs) (length_child_lt h)
        childText? name lx''
      | .error e lx'' => .error e lx''
termination_by lx.rest.length

/-- Moves past the remaining children of the current element and its end tag. -/
def skipChildren (lx : Lexer) : Lexed Unit :=
  match h : child lx with
  | .error e lx' => .error e lx'
  | .ok none lx' => .ok () lx'
  | .ok (some head) lx' =>
    match hs : skipHead head lx' with
    | .ok () lx'' =>
      have := Nat.lt_of_le_of_lt (length_skipHead_le hs) (length_child_lt h)
      skipChildren lx''
    | .error e lx'' => .error e lx''
termination_by lx.rest.length

theorem length_text_lt {before s : String} {lx lx' : Lexer} (h : text before lx = .ok s lx') :
    lx'.rest.length < lx.rest.length := by
  fun_induction text before lx
  all_goals first
    | (simp at h; done)
    | (cases h; exact length_next_lt ‹_› (ne_finish_of_textOfEvent ‹_›))
    | (rename_i ih; exact Nat.lt_trans (ih h) ‹_›)

theorem length_headText_le {head : Head} {s : String} {lx lx' : Lexer}
    (h : headText head lx = .ok s lx') : lx'.rest.length ≤ lx.rest.length := by
  unfold headText at h
  split at h
  · cases h
    exact Nat.le_refl _
  · exact Nat.le_of_lt (length_text_lt h)

/-- Moves through an entry to its value, and returns its key, and the head of the value if there is
one. The last key before the value counts. -/
def entry (key : Option String) (lx : Lexer) : Lexed (String × Option Head) :=
  match h : child lx with
  | .error e lx' => .error e lx'
  | .ok none lx' =>
    match key with
    | some k => .ok (k, none) lx'
    | none => .error (.malformed .entryWithoutKey) lx'
  | .ok (some head) lx' =>
    if head.name = "key" then
      match ht : headText head lx' with
      | .ok k lx'' =>
        have := Nat.lt_of_le_of_lt (length_headText_le ht) (length_child_lt h)
        entry (some k) lx''
      | .error e lx'' => .error e lx''
    else if head.name = "value" then
      match key with
      | some k => .ok (k, some head) lx'
      | none => .error (.malformed .valueBeforeKey) lx'
    else
      match hs : skipHead head lx' with
      | .ok () lx'' =>
        have := Nat.lt_of_le_of_lt (length_skipHead_le hs) (length_child_lt h)
        entry key lx''
      | .error e lx'' => .error e lx''
termination_by lx.rest.length

end Lexer

/-! ## The cursor -/

/-- What stands at the cursor. -/
inductive Cursor where
  | vacant
  | null
  | attribute (value : String)
  | element (head : Head)
deriving DecidableEq, Repr

/-- A structure that has been entered. An object still has the attributes not yet passed. The tail
of an entry is what follows its value. -/
inductive OpenPart where
  | object (attributes : List (String × String)) (isEmpty : Bool)
  | wrapped (isEmpty : Bool)
  | flattened (yielded : Bool)
  | mapping (isEmpty : Bool)
  | entryTail
deriving DecidableEq, Repr

/-- The state of reading a document. -/
structure Reader where
  lexer : Lexer
  cursor : Cursor
  stack : List OpenPart
deriving DecidableEq, Repr

namespace Reader

/-- Opens a document and puts the cursor on its root. -/
def ofBytes (bytes : List UInt8) : Except DecodeError Reader :=
  match (Lexer.ofSymbols (Symbol.decode bytes)).root with
  | .ok head lexer => .ok ⟨lexer, .element head, []⟩
  | .error e _ => .error e

/-- A step of the lexer as a step of the reader. -/
def pull {α : Type} (f : Lexer → Lexed α) : Reading Reader α := fun r =>
  match f r.lexer with
  | .ok a lexer => .ok a { r with lexer }
  | .error e lexer => .error e { r with lexer }

/-- Puts a value at the cursor. -/
def point (c : Cursor) : Reading Reader Unit := modify fun r => { r with cursor := c }

/-- Enters a structure. -/
def push (p : OpenPart) : Reading Reader Unit := modify fun r => { r with stack := p :: r.stack }

/-- Leaves the innermost structure. -/
def leave : Reading Reader Unit := modify fun r => { r with stack := r.stack.drop 1 }

/-- Takes what stands at the cursor. -/
def take : Reading Reader Cursor := do
  let c := (← get).cursor
  point .vacant
  return c

/-- Takes the element at the cursor. -/
def takeElement (what : String) : Reading Reader Head := do
  match ← take with
  | .element head => return head
  | .attribute _ => throw (.typeMismatch "<xml>" what "attribute")
  | _ => Reading.malformed (.expectedElement what)

/-- Drops what stands at the cursor, with the content of an element. -/
def discard : Reading Reader Unit := do
  match ← take with
  | .element head => pull (Lexer.skipHead head)
  | _ => pure ()

/-- Moves to the next child element, or leaves the innermost structure. -/
def advance : Reading Reader (Option Head) := do
  match ← pull Lexer.child with
  | some head =>
    point (.element head)
    return some head
  | none =>
    leave
    return none

/-- Moves to the next attribute or child of the current object, or leaves it. -/
def nextKey : Reading Reader (Option (String × Placement)) := do
  discard
  let r ← get
  match r.stack with
  | .object ((name, value) :: attributes) isEmpty :: rest =>
    set { r with cursor := .attribute value, stack := .object attributes isEmpty :: rest }
    return some (name, .attribute)
  | .object [] true :: _ =>
    leave
    return none
  | .object [] false :: _ => return (← advance).map fun head => (head.name, .element)
  | _ => Reading.malformed .notInObject

/-- The first attribute or child of this name in the current object, as text. -/
def peekField (name : String) (placement : Placement) : Reading Reader (Option String) := do
  let r ← get
  match r.stack with
  | .object attributes isEmpty :: _ =>
    match placement with
    | .attribute => return (attributes.find? fun a => a.1 = name).map Prod.snd
    | .element =>
      if isEmpty then return none
      else
        match r.lexer.childText? name with
        | .ok found _ => return found
        | .error e _ => throw e
  | _ => return none

/-- Takes the scalar at the cursor. -/
def scalar : Reading Reader Token := do
  match ← take with
  | .attribute value => return .text value
  | .element head => return .text (← pull (Lexer.headText head))
  | _ => Reading.malformed .noScalar

/-- Enters a sequence or mapping. The element at the cursor is the first item of a flattened
sequence, and stays there. -/
def beginContainer : Container → Reading Reader Unit
  | .sequence _ true => do
    match (← get).cursor with
    | .element _ => push (.flattened false)
    | _ => Reading.malformed .expectedItem
  | .sequence _ false => do push (.wrapped (← takeElement "sequence").isEmpty)
  | .mapping => do push (.mapping (← takeElement "map").isEmpty)

/-- Moves to the next item of the current sequence, or leaves it. A flattened sequence is entered
at each of its siblings and has just that one. -/
def nextElement : Reading Reader Bool := do
  let r ← get
  match r.stack with
  | .flattened false :: rest =>
    set { r with stack := .flattened true :: rest }
    return true
  | .flattened true :: _ =>
    discard
    leave
    return false
  | .wrapped true :: _ =>
    discard
    leave
    return false
  | .wrapped false :: _ =>
    discard
    return (← advance).isSome
  | _ => Reading.malformed .notInSequence

/-- Moves past the rest of an entry whose value has been handed out. -/
def closeEntry : Reading Reader Unit := do
  match (← get).stack with
  | .entryTail :: _ =>
    leave
    pull Lexer.skipChildren
  | _ => pure ()

/-- Moves to the value of the next entry of the current mapping, or leaves it. -/
def nextEntry : Reading Reader (Option String) := do
  discard
  closeEntry
  match (← get).stack with
  | .mapping true :: _ =>
    leave
    return none
  | .mapping false :: _ =>
    match ← pull Lexer.child with
    | none =>
      leave
      return none
    | some head =>
      if head.isEmpty then Reading.malformed (.emptyEntry head.name)
      else
        match ← pull (Lexer.entry none) with
        | (key, some value) =>
          point (.element value)
          push .entryTail
          return some key
        | (key, none) =>
          point .null
          return some key
  | _ => Reading.malformed .notInMap

/-- The number of attributes left in a structure. -/
def OpenPart.size : OpenPart → Nat
  | .object attributes _ => attributes.length
  | _ => 0

instance : Source Reader where
  beginObject := do
    let head ← takeElement "object"
    push (.object head.attributes head.isEmpty)
  nextKey := nextKey
  peekField := peekField
  isNull := do
    match (← get).cursor with
    | .null =>
      point .vacant
      return true
    | _ => return false
  scalar := scalar
  beginContainer := beginContainer
  nextElement := nextElement
  nextEntry := nextEntry
  skip := discard
  bound r := (r.stack.map OpenPart.size).foldr max 0 + r.lexer.rest.length + 1

end Reader

end Marshal.Markup
