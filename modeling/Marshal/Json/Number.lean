import Marshal.Json.Tree
import Marshal.Number.Text

/-!
# Reading JSON numbers

A number without fraction and exponent that fits 64 bits is an integer. Any other number is a double,
and it is read fast and not always to the nearest: the digits are gathered in a 64-bit significand,
digits that do not fit are dropped, the significand is rounded to a double, and one multiplication
or division by a rounded power of ten follows, or several when the exponent is far below zero. A
double that would be infinite is refused.
-/

namespace Marshal.Json

open Number

/-- The parts of a number as it was written. -/
structure NumberParts where
  negative : Bool
  whole : List Char
  fraction : Option (List Char)
  exponent : Option (Bool × List Char)

/-- The largest 64-bit significand. -/
def significandLimit : Nat := Nat.pow 2 64 - 1

/-- Takes digits into a significand as long as they fit; returns it with the digits left over. -/
def gather : Nat → List Char → Nat × List Char
  | n, [] => (n, [])
  | n, d :: ds =>
    if significandLimit < 10 * n + digitValue d then (n, d :: ds)
    else gather (10 * n + digitValue d) ds

/-- The double nearest to a power of ten. -/
def powerOfTen (n : Nat) : Double := .ofQuotient false (Nat.pow 10 n) 1

/-- The product of two finite doubles, rounded, without its sign. -/
def times (x y : Double) : Double :=
  .ofQuotient false (x.ratio.1 * y.ratio.1) (x.ratio.2 * y.ratio.2)

/-- The quotient of two finite doubles, rounded, without its sign. -/
def dividedBy (x y : Double) : Double :=
  .ofQuotient false (x.ratio.1 * y.ratio.2) (x.ratio.2 * y.ratio.1)

/-- Scales a double by a power of ten, in steps of at most 308 places. -/
def scale (x : Double) (e : Int) : Option Double :=
  if e.natAbs ≤ 308 then
    if 0 ≤ e then
      let y := times x (powerOfTen e.natAbs)
      if y.isFinite then some y else none
    else some (dividedBy x (powerOfTen e.natAbs))
  else if x.isZero then some x
  else if 0 ≤ e then none
  else scale (dividedBy x (powerOfTen 308)) (e + 308)
termination_by e.natAbs

/-- A double with a sign. -/
def signed (negative : Bool) (x : Double) : Double := .ofMagnitude negative x.magnitudeBits

/-- The double of a significand scaled by ten to the exponent that was written plus `shift`. An
exponent beyond 32 bits makes any number but zero too large, or makes it zero. -/
def fromParts? (negative : Bool) (significand : Nat) (shift : Int)
    (exponent : Option (Bool × List Char)) : Option Double :=
  let x := Double.ofQuotient false significand 1
  match exponent with
  | none => (scale x shift).map (signed negative)
  | some (below, ds) =>
    let e := ofDigits ds
    if Nat.pow 2 31 ≤ e then
      if below || significand = 0 then some (.ofMagnitude negative 0) else none
    else (scale x (if below then shift - e else shift + e)).map (signed negative)

/-- The value of a number. -/
def NumberParts.value? (p : NumberParts) : Option Json :=
  let (whole, dropped) := gather 0 p.whole
  match p.fraction, p.exponent, dropped with
  | none, none, [] =>
    if p.negative then
      if whole = 0 ∨ Nat.pow 2 63 < whole then some (.float (signed true (.ofQuotient false whole 1)))
      else some (.integer (-(whole : Int)))
    else some (.integer whole)
  | fraction, exponent, dropped =>
    let ds := fraction.getD []
    let (significand, rest) := gather whole ds
    let shift : Int := (dropped.length : Int) - (ds.length - rest.length : Nat)
    (fromParts? p.negative significand shift exponent).map .float

/-- Cuts one or more digits off the front. -/
def takeDigits? (cs : List Char) : Option (List Char × List Char) :=
  let ds := cs.takeWhile Char.isDigit
  if ds = [] then none else some (ds, cs.dropWhile Char.isDigit)

/-- Cuts the whole part off the front; it has no needless zero in front. -/
def takeWhole? (cs : List Char) : Option (List Char × List Char) := do
  let (ds, rest) ← takeDigits? cs
  if ds.head? = some '0' ∧ ds.length ≠ 1 then none else some (ds, rest)

/-- Cuts a fraction off the front, if there is one. -/
def takeFraction? : List Char → Option (Option (List Char) × List Char)
  | '.' :: cs => (takeDigits? cs).map fun (ds, rest) => (some ds, rest)
  | cs => some (none, cs)

/-- Cuts an exponent off the front, if there is one; the flag is set when it is negative. -/
def takeExponent? : List Char → Option (Option (Bool × List Char) × List Char)
  | [] => some (none, [])
  | c :: cs =>
    if c = 'e' ∨ c = 'E' then
      let (below, cs) := match cs with
        | '-' :: cs => (true, cs)
        | '+' :: cs => (false, cs)
        | cs => (false, cs)
      (takeDigits? cs).map fun (ds, rest) => (some (below, ds), rest)
    else some (none, c :: cs)

/-- Cuts a number off the front. -/
def takeNumber? (cs : List Char) : Option (NumberParts × List Char) := do
  let (negative, cs) := match cs with
    | '-' :: cs => (true, cs)
    | cs => (false, cs)
  let (whole, cs) ← takeWhole? cs
  let (fraction, cs) ← takeFraction? cs
  let (exponent, cs) ← takeExponent? cs
  return (⟨negative, whole, fraction, exponent⟩, cs)

/-- Reads a number off the front. -/
def number? (cs : List Char) : Option (Json × List Char) := do
  let (parts, rest) ← takeNumber? cs
  let j ← parts.value?
  return (j, rest)

end Marshal.Json
