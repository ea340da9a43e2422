import Marshal.Json.Print
import Marshal.Wire.Sink

/-!
# Writing JSON

The sink builds a tree and prints it in the end. Structures that are open form a stack, the
innermost first; each remembers the key it will have in the structure around it. An explicit null is
the word `null`.
-/

namespace Marshal.Json

/-- A structure that is open, with the key it will be placed under. -/
inductive OpenTree where
  | object (members : List (String × Json)) (key : Option String)
  | array (items : List Json) (key : Option String)
deriving Repr

/-- The state of writing a JSON document. -/
structure Writer where
  stack : List OpenTree
  root : Option Json
deriving Repr

namespace Writer

/-- The key of a value at a position. -/
def keyOf : Position → Option String
  | .field name _ => some name
  | .entry key => some key
  | .root .. => none
  | .item => none

/-- The state with a value placed in the innermost open structure, or as the root. -/
def place (w : Writer) (key : Option String) (j : Json) : Except SinkFault Writer :=
  match w.stack with
  | .object members own :: rest =>
    match key with
    | some k => .ok { w with stack := .object (put members k j) own :: rest }
    | none => .error .memberWithoutKey
  | .array items own :: rest => .ok { w with stack := .array (items ++ [j]) own :: rest }
  | [] =>
    match w.root with
    | some _ => .error .secondRoot
    | none => .ok { w with root := some j }

/-- Places a value. -/
def emit (key : Option String) (j : Json) : Writing Writer Unit := fun w =>
  match w.place key j with
  | .ok w => .ok () w
  | .error fault => .error (.sinkState fault) w

/-- Opens a structure. -/
def push (t : OpenTree) : Writing Writer Unit := modify fun w => { w with stack := t :: w.stack }

/-- Closes the innermost structure if it is an object. -/
def endObject : Writing Writer Unit := do
  match (← get).stack with
  | .object members key :: rest =>
    modify fun w => { w with stack := rest }
    emit key (.object members)
  | stack =>
    modify fun w => { w with stack := stack.drop 1 }
    throw (.sinkState .noOpenObject)

/-- Closes the innermost structure. -/
def endContainer : Writing Writer Unit := do
  match (← get).stack with
  | .object members key :: rest =>
    modify fun w => { w with stack := rest }
    emit key (.object members)
  | .array items key :: rest =>
    modify fun w => { w with stack := rest }
    emit key (.array items)
  | [] => throw (.sinkState .noOpenContainer)

/-- The tree of a scalar. -/
def ofToken (pos : Position) : Token → Except EncodeError Json
  | .bool b => .ok (.bool b)
  | .integer n => .ok (.integer n.toInt)
  | .float x => if x.isFinite then .ok (.float x) else .error (.nonFiniteFloat pos.label)
  | .text s => .ok (.text s)

/-- The tree that was written. -/
def tree (w : Writer) : Except EncodeError Json :=
  if w.stack.isEmpty then
    match w.root with
    | some j => .ok j
    | none => .error (.sinkState .emptyDocument)
  else .error (.sinkState .openStructures)

instance : Sink Writer where
  start := ⟨[], none⟩
  beginObject pos := push (.object [] (keyOf pos))
  endObject := endObject
  beginContainer pos
    | .sequence _ _ => push (.array [] (keyOf pos))
    | .mapping => push (.object [] (keyOf pos))
  endContainer := endContainer
  scalar pos t := do
    let j ← Writing.lift (ofToken pos t)
    emit (keyOf pos) j
  null pos := emit (keyOf pos) .null
  finish w := w.tree.map compact

end Writer

end Marshal.Json
