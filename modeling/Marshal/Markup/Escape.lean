import Marshal.Number.Integer
import Marshal.Text.Symbol

/-!
# Escapes in markup

Five characters are written as named references, in text and in attribute values alike. Reading
knows these five names and character references by number, decimal or hexadecimal, to any character
but the one numbered zero.
-/

namespace Marshal.Markup

/-- The named reference of a character, or the character itself. -/
def escapeChar (c : Char) : List Char :=
  if c = '<' then "&lt;".toList
  else if c = '>' then "&gt;".toList
  else if c = '&' then "&amp;".toList
  else if c = '\'' then "&apos;".toList
  else if c = '"' then "&quot;".toList
  else [c]

/-- A text with its special characters as references. -/
def escape (s : String) : String := String.ofList (s.toList.flatMap escapeChar)

/-- The character of a predefined name. -/
def named? (name : String) : Option Char :=
  if name = "lt" then some '<'
  else if name = "gt" then some '>'
  else if name = "amp" then some '&'
  else if name = "apos" then some '\''
  else if name = "quot" then some '"'
  else none

/-- The value of a digit in base 16. -/
def hexDigit? (c : Char) : Option Nat :=
  if c.isDigit then some (Number.digitValue c)
  else if 'a' ≤ c ∧ c ≤ 'f' then some (c.toNat - 'a'.toNat + 10)
  else if 'A' ≤ c ∧ c ≤ 'F' then some (c.toNat - 'A'.toNat + 10)
  else none

/-- Reads one or more digits of base 16. -/
def readHex? (cs : List Char) : Option Nat :=
  if cs = [] then none
  else cs.foldlM (fun n c => (hexDigit? c).map fun d => 16 * n + d) 0

/-- The character with a number. -/
def numbered? (n : Nat) : Option Char :=
  if n ≠ 0 ∧ n.isValidChar then some (Char.ofNat n) else none

/-- The character of a numeric reference, given what stands after the number sign. -/
def numeric? (cs : List Char) : Option Char :=
  match cs with
  | 'x' :: ds => (readHex? ds).bind numbered?
  | ds => (Number.readNat? ds).bind numbered?

/-- The character of a reference, given what stands between the ampersand and the semicolon. -/
def reference? (cs : List Char) : Option Char :=
  match cs with
  | '#' :: ds => numeric? ds
  | cs => named? (String.ofList cs)

/-- The text of an attribute value with its references resolved; `none` if one cannot be. The bound
is on the number of characters. -/
def unescapeChars : Nat → List Char → Option (List Char)
  | _, [] => some []
  | 0, _ => none
  | fuel + 1, c :: cs =>
    if c = '&' then
      let body := cs.takeWhile fun d => d ≠ ';' && d ≠ '&'
      match cs.drop body.length with
      | ';' :: rest => do
        let d ← reference? body
        return d :: (← unescapeChars fuel rest)
      | _ => none
    else (unescapeChars fuel cs).map (c :: ·)

/-- Resolves the references in an attribute value. -/
def unescape? (s : String) : Option String :=
  let cs := s.toList
  (unescapeChars cs.length cs).map String.ofList

end Marshal.Markup
