/-!
# Integers in text

Decimal text of integers and its reading: an optional sign and at least one digit, nothing else.
The bounded readers refuse what does not fit the width.
-/

namespace Marshal.Number

/-- The decimal text of a natural number. -/
def natText (n : Nat) : String := String.ofList (Nat.toDigits 10 n)

/-- The decimal text of an integer, with a minus sign in front when it is negative. -/
def intText (n : Int) : String :=
  if n < 0 then "-" ++ natText n.natAbs else natText n.natAbs

/-- The decimal text of a natural number, filled with zeros in front up to `width` digits. -/
def paddedText (width n : Nat) : String :=
  let digits := Nat.toDigits 10 n
  String.ofList (List.replicate (width - digits.length) '0' ++ digits)

/-- The value of a decimal digit. -/
def digitValue (c : Char) : Nat := c.toNat - '0'.toNat

/-- The number that a row of decimal digits denotes. -/
def ofDigits (ds : List Char) : Nat := ds.foldl (fun n d => 10 * n + digitValue d) 0

/-- Reads one or more decimal digits that make up the whole text. -/
def readNat? (cs : List Char) : Option Nat :=
  if cs ≠ [] ∧ cs.all Char.isDigit then some (ofDigits cs) else none

/-- Reads an optional sign followed by decimal digits that make up the rest of the text. -/
def readInt? : List Char → Option Int
  | '-' :: cs => (readNat? cs).map fun n => -(n : Int)
  | '+' :: cs => (readNat? cs).map Int.ofNat
  | cs => (readNat? cs).map Int.ofNat

/-- Whether an integer fits `width` bits in two's complement. -/
def fits (width : Nat) (n : Int) : Bool :=
  -(Nat.pow 2 (width - 1) : Int) ≤ n && n < (Nat.pow 2 (width - 1) : Int)

/-- Reads an integer that fits `width` bits. -/
def readFitting? (width : Nat) (s : String) : Option Int64 :=
  match readInt? s.toList with
  | some n => if fits width n then some (Int64.ofInt n) else none
  | none => none

end Marshal.Number
