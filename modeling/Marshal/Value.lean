import Marshal.Catalogue.Entity
import Marshal.Number.Double
import Marshal.Table
import Marshal.Time.Instant

/-!
# Values

What is written to a document and read from one. A property that is absent is a key missing from the
fields of an object, and an explicit null is a value of its own; the two are never mixed up. The
entries of maps and objects stand in ascending key order.
-/

namespace Marshal

open Number Time

/-- A word of an enumeration: a declared member by its name, or a word the enumeration does not
list. -/
inductive EnumValue where
  | known (member : String)
  | unknown (raw : String)
deriving DecidableEq, Repr

/-- A value. -/
inductive Value where
  | null
  | bool (b : Bool)
  | integer (n : Int64)
  | float (x : Double)
  | text (s : String)
  | timestamp (t : Instant)
  | blob (bytes : List UInt8)
  | enum (e : EnumValue)
  | list (items : List Value)
  | map (entries : List (String × Value))
  | object (type : Handle) (fields : List (String × Value))
deriving Repr

/-- An object: its most derived type and the properties it has, by name. -/
structure Instance where
  type : Handle
  fields : Table String Value
deriving Repr

/-- An object as a value. -/
def Instance.toValue (i : Instance) : Value := .object i.type i.fields

namespace Value

/-- The word for the kind of a value. -/
def kindName : Value → String
  | .null => "null"
  | .bool _ => "boolean"
  | .integer _ => "integer"
  | .float _ => "float"
  | .text _ => "string"
  | .timestamp _ => "timestamp"
  | .blob _ => "blob"
  | .enum _ => "enum"
  | .list _ => "list"
  | .map _ => "map"
  | .object .. => "object"

/-- Whether a value is the explicit null. -/
def isNull : Value → Bool
  | .null => true
  | _ => false

/-- The text of a text value. -/
def text? : Value → Option String
  | .text s => some s
  | _ => none

/-- The object of an object value. -/
def object? : Value → Option Instance
  | .object type fields => some ⟨type, fields⟩
  | _ => none

/-! ## Equality

Two values are the same when they are built alike and their doubles are numerically equal. -/

mutual

/-- Whether two values are the same. -/
def same : Value → Value → Bool
  | .null, .null => true
  | .bool a, .bool b => a == b
  | .integer a, .integer b => a == b
  | .float a, .float b => a.same b
  | .text a, .text b => a == b
  | .timestamp a, .timestamp b => a == b
  | .blob a, .blob b => a == b
  | .enum a, .enum b => a == b
  | .list as, .list bs => sameItems as bs
  | .map as, .map bs => sameEntries as bs
  | .object t as, .object u bs => t == u && sameEntries as bs
  | _, _ => false

/-- Whether two lists have the same items. -/
def sameItems : List Value → List Value → Bool
  | [], [] => true
  | a :: as, b :: bs => same a b && sameItems as bs
  | _, _ => false

/-- Whether two tables have the same entries. -/
def sameEntries : List (String × Value) → List (String × Value) → Bool
  | [], [] => true
  | (k, a) :: as, (l, b) :: bs => k == l && same a b && sameEntries as bs
  | _, _ => false

end

end Value

/-- Whether two objects are the same. -/
def Instance.same (a b : Instance) : Bool := a.toValue.same b.toValue

end Marshal
