import Marshal.Base64
import Marshal.Number.Text
import Marshal.Value
import Marshal.Wire.Error

/-!
# Scalar tokens

What stands in a document for a primitive value. Formats with typed scalars have tokens for
booleans, integers and doubles; in markup every scalar is text. Text is read for every kind of
primitive, blanks around it ignored except in strings, so both kinds of format share one path.
-/

namespace Marshal

open Number Time

/-- A scalar of a document. -/
inductive Token where
  | bool (b : Bool)
  | integer (n : Int64)
  | float (x : Double)
  | text (s : String)
deriving DecidableEq, Repr

namespace Token

/-- The word for the kind of a token. -/
def kindName : Token → String
  | .bool _ => "boolean"
  | .integer _ => "integer"
  | .float _ => "float"
  | .text _ => "text"

/-- A token as text. -/
def spelling : Token → String
  | .bool b => if b then "true" else "false"
  | .integer n => intText n.toInt
  | .float x => x.text
  | .text s => s

/-- The token of a value of a primitive type. Integers must fit 32 bits; doubles must be finite. -/
def ofValue (kind : Primitive) (v : Value) (field : String) : Except EncodeError Token :=
  match kind, v with
  | .string, .text s => .ok (.text s)
  | .boolean, .bool b => .ok (.bool b)
  | .integer, .integer n =>
    if fits 32 n.toInt then .ok (.integer n)
    else .error (.typeMismatch field kind.name v.kindName)
  | .long, .integer n => .ok (.integer n)
  | .float, .float x => if x.isFinite then .ok (.float x) else .error (.nonFiniteFloat field)
  | .double, .float x => if x.isFinite then .ok (.float x) else .error (.nonFiniteFloat field)
  | .timestamp, .timestamp t => .ok (.text t.text)
  | .blob, .blob bytes => .ok (.text (Base64.encode bytes))
  | kind, v => .error (.typeMismatch field kind.name v.kindName)

/-- Reads a boolean from its text. -/
def readBool? (s : String) : Option Bool :=
  let t := Text.trim s
  if t = "true" then some true else if t = "false" then some false else none

/-- Reads a finite double from its text. -/
def readFinite? (s : String) : Option Double :=
  (Double.read? (Text.trim s)).filter Double.isFinite

/-- Reads the value of a primitive type from its text. -/
def readText? (kind : Primitive) (s : String) : Option Value :=
  match kind with
  | .string => some (.text s)
  | .boolean => (readBool? s).map .bool
  | .integer => (readFitting? 32 (Text.trim s)).map .integer
  | .long => (readFitting? 64 (Text.trim s)).map .integer
  | .float => (readFinite? s).map .float
  | .double => (readFinite? s).map .float
  | .timestamp => (Instant.read? (Text.trim s)).map .timestamp
  | .blob => (Base64.decode? s).map .blob

/-- The value of a token for a primitive type. -/
def toValue (kind : Primitive) (t : Token) (field : String) : Except DecodeError Value :=
  match kind, t with
  | kind, .text s =>
    match readText? kind s with
    | some v => .ok v
    | none => .error (.invalidScalar field kind.name s)
  | .boolean, .bool b => .ok (.bool b)
  | .integer, .integer n =>
    if fits 32 n.toInt then .ok (.integer n)
    else .error (.invalidScalar field kind.name (intText n.toInt))
  | .long, .integer n => .ok (.integer n)
  | .float, .float x => .ok (.float x)
  | .double, .float x => .ok (.float x)
  | .float, .integer n => .ok (.float (Double.ofInt n.toInt))
  | .double, .integer n => .ok (.float (Double.ofInt n.toInt))
  | kind, t => .error (.typeMismatch field kind.name t.kindName)

end Token

end Marshal
