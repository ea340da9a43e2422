import Marshal.Text.Blank

/-!
# Base64

The standard alphabet with padding. Reading is strict: groups of four, padding only where the last
group needs it, and no bits set that stand for nothing, so each byte sequence has one spelling.
-/

namespace Marshal.Base64

/-- The character of a six-bit value. -/
def letter (n : Nat) : Char :=
  if n < 26 then Char.ofNat ('A'.toNat + n)
  else if n < 52 then Char.ofNat ('a'.toNat + (n - 26))
  else if n < 62 then Char.ofNat ('0'.toNat + (n - 52))
  else if n = 62 then '+'
  else '/'

/-- The six-bit value of a character. -/
def value? (c : Char) : Option Nat :=
  if 'A' ≤ c ∧ c ≤ 'Z' then some (c.toNat - 'A'.toNat)
  else if 'a' ≤ c ∧ c ≤ 'z' then some (c.toNat - 'a'.toNat + 26)
  else if '0' ≤ c ∧ c ≤ '9' then some (c.toNat - '0'.toNat + 52)
  else if c = '+' then some 62
  else if c = '/' then some 63
  else none

/-- The spelling of a byte sequence, three bytes to four characters. -/
def encodeChars : List UInt8 → List Char
  | [] => []
  | [a] => [letter (a.toNat / 4), letter (a.toNat % 4 * 16), '=', '=']
  | [a, b] =>
    [letter (a.toNat / 4), letter (a.toNat % 4 * 16 + b.toNat / 16), letter (b.toNat % 16 * 4), '=']
  | a :: b :: c :: rest =>
    letter (a.toNat / 4) :: letter (a.toNat % 4 * 16 + b.toNat / 16) ::
      letter (b.toNat % 16 * 4 + c.toNat / 64) :: letter (c.toNat % 64) :: encodeChars rest

/-- Reads four characters that are not the last group of a padded text. -/
def group? (a b c d : Char) : Option (List UInt8) := do
  let a ← value? a
  let b ← value? b
  let c ← value? c
  let d ← value? d
  return [UInt8.ofNat (a * 4 + b / 16), UInt8.ofNat (b % 16 * 16 + c / 4),
    UInt8.ofNat (c % 4 * 64 + d)]

/-- Reads a last group, with its padding. -/
def lastGroup? (a b c d : Char) : Option (List UInt8) :=
  if d ≠ '=' then group? a b c d
  else do
    let x ← value? a
    let y ← value? b
    if c = '=' then
      if y % 16 = 0 then some [UInt8.ofNat (x * 4 + y / 16)] else none
    else
      let z ← value? c
      if z % 4 = 0 then
        some [UInt8.ofNat (x * 4 + y / 16), UInt8.ofNat (y % 16 * 16 + z / 4)]
      else none

/-- Reads a spelling back. -/
def decodeChars : List Char → Option (List UInt8)
  | [] => some []
  | [a, b, c, d] => lastGroup? a b c d
  | a :: b :: c :: d :: rest => do
    let first ← group? a b c d
    let others ← decodeChars rest
    return first ++ others
  | _ => none

/-- The base64 text of a byte sequence. -/
def encode (bytes : List UInt8) : String := String.ofList (encodeChars bytes)

/-- The byte sequence of a base64 text, blanks around it ignored. -/
def decode? (s : String) : Option (List UInt8) := decodeChars (Text.trimChars s.toList)

end Marshal.Base64
