/-!
# Doubles

Double-precision numbers are held by their bit pattern, and what is computed with them is computed
on natural numbers: a finite double is `significand * 2 ^ exponent`, and `Double.ofQuotient` rounds
a quotient of naturals to the nearest double, a half to the even neighbour. Equality of the type
tells bit patterns apart; `Double.same` is numeric equality, where the two zeros agree and a NaN
differs from itself.
-/

namespace Marshal.Number

/-- A double-precision number, by its bit pattern. -/
structure Double where
  bits : UInt64
deriving DecidableEq, Repr

namespace Double

/-- The sign bit. -/
def isNegative (x : Double) : Bool := Nat.pow 2 63 ≤ x.bits.toNat

/-- The bits below the sign. -/
def magnitudeBits (x : Double) : Nat := x.bits.toNat % Nat.pow 2 63

/-- The magnitude bits of infinity. -/
def infinityBits : Nat := 2047 * Nat.pow 2 52

/-- Whether the number is neither infinite nor a NaN. -/
def isFinite (x : Double) : Bool := x.magnitudeBits < infinityBits

/-- Whether the bits stand for no number. -/
def isNaN (x : Double) : Bool := infinityBits < x.magnitudeBits

/-- Whether the number is zero, of either sign. -/
def isZero (x : Double) : Bool := x.magnitudeBits == 0

/-- The number with a given sign and magnitude bits. -/
def ofMagnitude (negative : Bool) (magnitude : Nat) : Double :=
  ⟨UInt64.ofNat ((if negative then Nat.pow 2 63 else 0) + magnitude)⟩

/-- The biased exponent field. -/
def exponentField (x : Double) : Nat := x.magnitudeBits / Nat.pow 2 52

/-- The integer significand of a finite number. -/
def significand (x : Double) : Nat :=
  let fraction := x.magnitudeBits % Nat.pow 2 52
  if x.exponentField = 0 then fraction else fraction + Nat.pow 2 52

/-- The power of two that the integer significand of a finite number is scaled by. -/
def exponent (x : Double) : Int :=
  if x.exponentField = 0 then -1074 else (x.exponentField : Int) - 1075

/-- The magnitude of a finite number as a quotient of naturals. -/
def ratio (x : Double) : Nat × Nat :=
  (x.significand * Nat.pow 2 x.exponent.toNat, Nat.pow 2 (-x.exponent).toNat)

/-- The nearest natural to `num / den`, a half going to the even one. -/
def roundHalfEven (num den : Nat) : Nat :=
  let q := num / den
  let r := num % den
  if den < 2 * r ∨ (2 * r = den ∧ q % 2 = 1) then q + 1 else q

/-- The magnitude bits nearest to `num / den`, infinity included. -/
def nearestBits (num den : Nat) : Nat :=
  if num = 0 then 0
  else
    let first : Int := (num.log2 : Int) - den.log2 - 52
    let scaled (e : Int) : Nat × Nat := (num * Nat.pow 2 (-e).toNat, den * Nat.pow 2 e.toNat)
    let settled : Int :=
      if (scaled first).1 < Nat.pow 2 52 * (scaled first).2 then first - 1 else first
    let e : Int := max settled (-1074)
    let q := roundHalfEven (scaled e).1 (scaled e).2
    if q < Nat.pow 2 52 then q
    else min infinityBits ((e + 1075).toNat * Nat.pow 2 52 + (q - Nat.pow 2 52))

/-- The double nearest to the quotient of two naturals, with a sign. -/
def ofQuotient (negative : Bool) (num den : Nat) : Double :=
  ofMagnitude negative (nearestBits num den)

/-- The double nearest to `digits * 10 ^ exponent`, with a sign. -/
def ofDecimal (negative : Bool) (digits : Nat) (exponent : Int) : Double :=
  if digits = 0 then ofMagnitude negative 0
  else if 400 < exponent then ofMagnitude negative infinityBits
  else if exponent + digits.log2 < -400 then ofMagnitude negative 0
  else ofQuotient negative (digits * Nat.pow 10 exponent.toNat)
    (Nat.pow 10 (-exponent).toNat)

/-- The double nearest to an integer. -/
def ofInt (n : Int) : Double := ofQuotient (n < 0) n.natAbs 1

/-- Numeric equality. -/
def same (x y : Double) : Bool :=
  !x.isNaN && !y.isNaN && (x == y || (x.isZero && y.isZero))

end Double

end Marshal.Number
