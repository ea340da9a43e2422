import Marshal.Number.Double
import Marshal.Table

/-!
# JSON trees

The value that a JSON text denotes. A tree as written has every member of its objects in order; in a
merged tree a repeated key keeps its first place and takes its last value. Numbers without fraction
and exponent are integers as long as they fit 64 bits with or without a sign.
-/

namespace Marshal

open Number

/-- A JSON value. -/
inductive Json where
  | null
  | bool (b : Bool)
  | integer (n : Int)
  | float (x : Double)
  | text (s : String)
  | array (items : List Json)
  | object (members : List (String × Json))
deriving Repr

namespace Json

/-- Puts a member in the place of the one with its key, or at the end. -/
def put (members : List (String × Json)) (key : String) (value : Json) : List (String × Json) :=
  match members with
  | [] => [(key, value)]
  | (k, v) :: rest => if k = key then (k, value) :: rest else (k, v) :: put rest key value

/-- The word for the kind of a JSON value. -/
def kindName : Json → String
  | .null => "null"
  | .bool _ => "boolean"
  | .integer _ => "number"
  | .float _ => "number"
  | .text _ => "string"
  | .array _ => "array"
  | .object _ => "object"

/-- The object with these members; a repeated key keeps its place and takes the later value. -/
def ofMembers (ms : List (String × Json)) : Json := .object (ms.foldl (fun t m => put t m.1 m.2) [])

mutual

/-- The tree with the repeated keys of its objects merged. -/
def merged : Json → Json
  | .array items => .array (mergedItems items)
  | .object members => .ofMembers (mergedMembers members)
  | j => j

/-- The items of an array, merged. -/
def mergedItems : List Json → List Json
  | [] => []
  | j :: js => merged j :: mergedItems js

/-- The values of members, merged. -/
def mergedMembers : List (String × Json) → List (String × Json)
  | [] => []
  | (key, j) :: ms => (key, merged j) :: mergedMembers ms

end

/-- A natural number. -/
def ofNat (n : Nat) : Json := .integer n

/-- A text that may be missing. -/
def ofText? : Option String → Json
  | some s => .text s
  | none => .null

/-- An object keyed by the entries of a table. -/
def ofTable {α : Type} (f : α → Json) (t : Table String α) : Json :=
  .object (t.map fun e => (e.1, f e.2))

end Json

end Marshal
