import Marshal.Number.Integer
import Marshal.Number.Shortest

/-!
# Doubles in text

The plain spelling of doubles, which never has an exponent, and the reading of decimal numbers,
infinities and NaN from text, rounded correctly.
-/

namespace Marshal.Number

/-- The digits of a decimal written positionally; whole numbers get no point. -/
def Decimal.positional (d : Decimal) : List Char :=
  let ds := Nat.toDigits 10 d.digits
  if 0 ≤ d.exponent then ds ++ List.replicate d.exponent.toNat '0'
  else
    let places := (-d.exponent).toNat
    if places < ds.length then
      ds.take (ds.length - places) ++ '.' :: ds.drop (ds.length - places)
    else '0' :: '.' :: (List.replicate (places - ds.length) '0' ++ ds)

/-- The plain spelling of a double: shortest digits, positional, of two equally near decimals the
larger. -/
def Double.text (x : Double) : String :=
  if x.isNaN then "NaN"
  else
    let sign := if x.isNegative then "-" else ""
    if x.isFinite then sign ++ String.ofList (x.shortest .up).positional
    else sign ++ "inf"

/-- Reads an exponent mark, an optional sign and digits, up to the end of the text. -/
def readExponent? : List Char → Option Int
  | [] => some 0
  | c :: cs => if c = 'e' ∨ c = 'E' then readInt? cs else none

/-- Reads digits with an optional point among or around them, at least one digit, and an optional
exponent. -/
def readDecimal? (negative : Bool) (cs : List Char) : Option Double :=
  let whole := cs.takeWhile Char.isDigit
  let rest := cs.dropWhile Char.isDigit
  let (fraction, tail) :=
    match rest with
    | '.' :: rest => (rest.takeWhile Char.isDigit, rest.dropWhile Char.isDigit)
    | _ => ([], rest)
  if whole = [] ∧ fraction = [] then none
  else
    (readExponent? tail).map fun e =>
      Double.ofDecimal negative (ofDigits (whole ++ fraction)) (e - fraction.length)

/-- A quiet NaN. -/
def Double.nan : Double := ⟨0x7FF8000000000000⟩

/-- Reads a number, an infinity or NaN without a sign; the words are read in any case. -/
def readUnsigned? (negative : Bool) (cs : List Char) : Option Double :=
  let word := String.ofList (cs.map Char.toLower)
  if word = "inf" ∨ word = "infinity" then some (.ofMagnitude negative Double.infinityBits)
  else if word = "nan" then some Double.nan
  else readDecimal? negative cs

/-- Reads a double from text, correctly rounded. -/
def Double.read? (s : String) : Option Double :=
  match s.toList with
  | '-' :: cs => readUnsigned? true cs
  | '+' :: cs => readUnsigned? false cs
  | cs => readUnsigned? false cs

end Marshal.Number
