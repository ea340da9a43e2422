import Marshal.Text.Blank

/-!
# Formats

The two document formats that plans are made for, and the reading of their names.
-/

namespace Marshal

/-- A document format. -/
inductive Format where
  | json
  | xml
deriving DecidableEq, Repr

namespace Format

/-- The name of a format. -/
def name : Format → String
  | .json => "json"
  | .xml => "xml"

/-- The format of exactly this name. -/
def ofName? (s : String) : Option Format :=
  if s = "json" then some .json else if s = "xml" then some .xml else none

/-- A text that should name a format and does not. -/
structure Unknown where
  text : String
deriving DecidableEq, Repr

/-- The wording of a failure to read a format name. -/
def Unknown.message (u : Unknown) : String :=
  "unknown wire format: " ++ u.text ++ " (expected \x60json\x60 or \x60xml\x60)"

/-- Reads a format name in any case, blanks around it ignored. -/
def read (s : String) : Except Unknown Format :=
  match ofName? (Text.lowerAscii (Text.trim s)) with
  | some f => .ok f
  | none => .error ⟨s⟩

end Format

end Marshal
