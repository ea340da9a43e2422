import Marshal.Json.Tree
import Marshal.Number.Text

/-!
# Printing JSON

The compact text of a JSON tree, without blanks, and the indented text of the plan files, two spaces
a level. Strings escape quotes, backslashes and control characters and nothing else. Doubles have
their shortest digits: positional, always with a point, while the decimal exponent is between -5 and
15, and in scientific form with a signed exponent outside.
-/

namespace Marshal.Json

open Number

/-! ## Strings -/

/-- The escaped form of a character in a string. -/
def escapeChar (c : Char) : List Char :=
  if c = '"' then ['\\', '"']
  else if c = '\\' then ['\\', '\\']
  else if c = '\n' then ['\\', 'n']
  else if c = '\r' then ['\\', 'r']
  else if c = '\t' then ['\\', 't']
  else if c.toNat = 8 then ['\\', 'b']
  else if c.toNat = 12 then ['\\', 'f']
  else if c.toNat < 32 then
    ['\\', 'u', '0', '0', Nat.digitChar (c.toNat / 16), Nat.digitChar (c.toNat % 16)]
  else [c]

/-- A string with its quotes. -/
def stringText (s : String) : String :=
  "\"" ++ String.ofList (s.toList.flatMap escapeChar) ++ "\""

/-! ## Doubles -/

/-- The spelling of a decimal in a JSON number. -/
def decimalText (d : Decimal) : List Char :=
  let ds := Nat.toDigits 10 d.digits
  let scientific : Int := d.exponent + ds.length - 1
  if d.digits = 0 then ['0', '.', '0']
  else if -5 ≤ scientific ∧ scientific < 16 then
    if 0 ≤ d.exponent then d.positional ++ ['.', '0'] else d.positional
  else
    let fraction := ds.drop 1
    ds.take 1 ++ (if fraction = [] then [] else '.' :: fraction) ++
      'e' :: (if scientific < 0 then '-' else '+') :: Nat.toDigits 10 scientific.natAbs

/-- The JSON number of a finite double; of two equally near decimals the even one. -/
def doubleText (x : Double) : String :=
  (if x.isNegative then "-" else "") ++ String.ofList (decimalText (x.shortest .toEven))

/-! ## Trees -/

mutual

/-- The compact text of a JSON value. -/
def compact : Json → String
  | .null => "null"
  | .bool b => if b then "true" else "false"
  | .integer n => intText n
  | .float x => doubleText x
  | .text s => stringText s
  | .array items => "[" ++ compactItems items ++ "]"
  | .object members => "\x7b" ++ compactMembers members ++ "\x7d"

/-- The items of an array, with commas between them. -/
def compactItems : List Json → String
  | [] => ""
  | [j] => compact j
  | j :: rest => compact j ++ "," ++ compactItems rest

/-- The members of an object, with commas between them. -/
def compactMembers : List (String × Json) → String
  | [] => ""
  | [(k, j)] => stringText k ++ ":" ++ compact j
  | (k, j) :: rest => stringText k ++ ":" ++ compact j ++ "," ++ compactMembers rest

end

/-- A line break and the indentation of a level. -/
def lineBreak (level : Nat) : String := "\n" ++ String.ofList (List.replicate (2 * level) ' ')

mutual

/-- The indented text of a JSON value that stands at a level. -/
def indented (level : Nat) : Json → String
  | .array [] => "[]"
  | .object [] => "\x7b\x7d"
  | .array items => "[" ++ indentedItems (level + 1) items ++ lineBreak level ++ "]"
  | .object members => "\x7b" ++ indentedMembers (level + 1) members ++ lineBreak level ++ "\x7d"
  | .null => "null"
  | .bool b => if b then "true" else "false"
  | .integer n => intText n
  | .float x => doubleText x
  | .text s => stringText s

/-- The items of an array, each on lines of its own. -/
def indentedItems (level : Nat) : List Json → String
  | [] => ""
  | [j] => lineBreak level ++ indented level j
  | j :: rest => lineBreak level ++ indented level j ++ "," ++ indentedItems level rest

/-- The members of an object, each on lines of its own. -/
def indentedMembers (level : Nat) : List (String × Json) → String
  | [] => ""
  | [(k, j)] => lineBreak level ++ stringText k ++ ": " ++ indented level j
  | (k, j) :: rest =>
    lineBreak level ++ stringText k ++ ": " ++ indented level j ++ "," ++
      indentedMembers level rest

end

/-- The text of a plan file. -/
def pretty (j : Json) : String := indented 0 j

end Marshal.Json
