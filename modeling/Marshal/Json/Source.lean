import Marshal.Json.Read
import Marshal.Wire.Source

/-!
# Reading from JSON

The whole document is parsed first, and a cursor walks the tree. The structures that have been
entered form a stack, the innermost first, each with what is left of it, so that the discriminator
can be found ahead of the scan.
-/

namespace Marshal.Json

/-- A structure that has been entered, with the parts not yet passed. -/
inductive OpenPart where
  | object (members : List (String × Json))
  | array (items : List Json)
deriving Repr

/-- The state of reading a JSON document: the value at the cursor and the structures around it. -/
structure Reader where
  cursor : Option Json
  stack : List OpenPart
deriving Repr

namespace Reader

/-- The state before the root is read. -/
def ofTree (j : Json) : Reader := ⟨some j, []⟩

/-- Opens a document. -/
def ofBytes (bytes : List UInt8) : Except DecodeError Reader :=
  match Json.ofBytes? bytes with
  | some j => .ok (ofTree j)
  | none => .error (.malformed .json)

/-- A value is not of the kind that was expected. -/
def mismatch (expected : String) (found : Json) : DecodeError :=
  .typeMismatch "<json>" expected found.kindName

/-- Takes the value at the cursor. -/
def take : Reading Reader Json := do
  match (← get).cursor with
  | some j =>
    modify fun r => { r with cursor := none }
    return j
  | none => Reading.malformed .noValue

/-- Enters a structure. -/
def push (p : OpenPart) : Reading Reader Unit := modify fun r => { r with stack := p :: r.stack }

/-- Takes the object at the cursor and enters it. -/
def enterObject (expected : String) : Reading Reader Unit := do
  match ← take with
  | .object members => push (.object members)
  | j => throw (mismatch expected j)

/-- Takes the array at the cursor and enters it. -/
def enterArray : Reading Reader Unit := do
  match ← take with
  | .array items => push (.array items)
  | j => throw (mismatch "array" j)

/-- Moves to the next member of the current object, or leaves it. -/
def nextMember : Reading Reader (Option String) := do
  let r ← get
  match r.stack with
  | .object ((key, j) :: members) :: rest =>
    set { r with cursor := some j, stack := .object members :: rest }
    return some key
  | .object [] :: rest =>
    set { r with stack := rest }
    return none
  | _ => Reading.malformed .notInObject

/-- Moves to the next item of the current array, or leaves it. -/
def nextItem : Reading Reader Bool := do
  let r ← get
  match r.stack with
  | .array (j :: items) :: rest =>
    set { r with cursor := some j, stack := .array items :: rest }
    return true
  | .array [] :: rest =>
    set { r with stack := rest }
    return false
  | _ => Reading.malformed .notInArray

/-- The first text among the members with a key. -/
def firstText? (key : String) : List (String × Json) → Option String
  | [] => none
  | (k, .text s) :: rest => if k = key then some s else firstText? key rest
  | _ :: rest => firstText? key rest

/-- The token of a scalar. Integers beyond 64 bits with a sign are doubles. -/
def tokenOf : Json → Except DecodeError Token
  | .bool b => .ok (.bool b)
  | .integer n =>
    if Number.fits 64 n then .ok (.integer (Int64.ofInt n)) else .ok (.float (.ofInt n))
  | .float x => .ok (.float x)
  | .text s => .ok (.text s)
  | j => .error (mismatch "scalar" j)

/-- The number of parts left in a structure. -/
def OpenPart.size : OpenPart → Nat
  | .object members => members.length
  | .array items => items.length

instance : Source Reader where
  beginObject := enterObject "object"
  nextKey := do return (← nextMember).map fun key => (key, .element)
  peekField key _ := do
    match (← get).stack with
    | .object members :: _ => return firstText? key members
    | _ => return none
  isNull := do
    match (← get).cursor with
    | some .null =>
      modify fun r => { r with cursor := none }
      return true
    | _ => return false
  scalar := do
    let j ← take
    Reading.lift (tokenOf j)
  beginContainer
    | .sequence _ _ => enterArray
    | .mapping => enterObject "map"
  nextElement := nextItem
  nextEntry := nextMember
  skip := modify fun r => { r with cursor := none }
  bound r := (r.stack.map OpenPart.size).foldr max 0

end Reader

end Marshal.Json
