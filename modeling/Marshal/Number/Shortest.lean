import Marshal.Number.Double

/-!
# Shortest decimal digits

The fewest decimal digits that read back as a given double, and of those the digits nearest to its
value. A finite positive double owns an interval of reals that round to it, its ends included when
the significand is even. On the grid of decimals with `n` significant digits only the two
neighbours of the value can be the nearest point inside that interval, so the search tries the two
neighbours for `n = 1, 2, …` and stops at the first grid that has one inside.
-/

namespace Marshal.Number

/-- The number `digits * 10 ^ exponent`. -/
structure Decimal where
  digits : Nat
  exponent : Int
deriving DecidableEq, Repr

/-- Which neighbour is taken when both are equally near. -/
inductive Tie where
  | toEven
  | up
deriving DecidableEq, Repr

/-- Takes zeros at the end of the digits into the exponent. -/
def Decimal.strip : Nat → Decimal → Decimal
  | 0, d => d
  | fuel + 1, d =>
    if d.digits % 10 = 0 ∧ d.digits ≠ 0 then strip fuel ⟨d.digits / 10, d.exponent + 1⟩ else d

namespace Shortest

/-- The reals that round to a positive double: `low`, `value` and `high` over `den`. -/
structure Interval where
  low : Nat
  value : Nat
  high : Nat
  den : Nat
  closed : Bool

/-- The interval of a finite positive double. Below a power of two the gap is half as wide. -/
def Interval.of (x : Double) : Interval :=
  let m := x.significand
  let scale := Nat.pow 2 x.exponent.toNat
  let narrow := m == Nat.pow 2 52 && 1 < x.exponentField
  { low := (4 * m - (if narrow then 1 else 2)) * scale
    value := 4 * m * scale
    high := (4 * m + 2) * scale
    den := 4 * Nat.pow 2 (-x.exponent).toNat
    closed := m % 2 == 0 }

/-- Whether the point `n / d` lies in the interval. -/
def Interval.holds (i : Interval) (n d : Nat) : Bool :=
  if i.closed then i.low * d ≤ n * i.den && n * i.den ≤ i.high * d
  else i.low * d < n * i.den && n * i.den < i.high * d

/-- The place of the leading decimal digit of the value: `10 ^ place ≤ value < 10 ^ (place + 1)`. -/
def Interval.place (i : Interval) : Int :=
  ((Nat.toDigits 10 (i.value * Nat.pow 10 400 / i.den)).length : Int) - 401

/-- The better of the two neighbours of the value on the grid of multiples of `10 ^ unit`, if one
of them lies in the interval. -/
def Interval.neighbour? (i : Interval) (tie : Tie) (unit : Int) : Option Nat :=
  let up := Nat.pow 10 unit.toNat
  let down := Nat.pow 10 (-unit).toNat
  let num := i.value * down
  let den := i.den * up
  let a := num / den
  let r := num % den
  let inside (n : Nat) : Bool := i.holds (n * up) down
  match inside a, inside (a + 1) with
  | false, false => none
  | true, false => some a
  | false, true => some (a + 1)
  | true, true =>
    if 2 * r < den then some a
    else if den < 2 * r then some (a + 1)
    else match tie with
      | .up => some (a + 1)
      | .toEven => if a % 2 = 0 then some a else some (a + 1)

/-- Tries grids of `count`, `count + 1`, … significant digits. -/
def Interval.search (i : Interval) (tie : Tie) : Nat → Nat → Decimal
  | 0, count => ⟨i.value * Nat.pow 10 count / i.den, -(count : Int)⟩
  | fuel + 1, count =>
    let unit : Int := i.place - count + 1
    match i.neighbour? tie unit with
    | some n => ⟨n, unit⟩
    | none => search i tie fuel (count + 1)

end Shortest

/-- The shortest decimal that reads back as a finite double's magnitude. Seventeen digits always
suffice. -/
def Double.shortest (tie : Tie) (x : Double) : Decimal :=
  if x.isZero then ⟨0, 0⟩
  else Decimal.strip 400 ((Shortest.Interval.of x).search tie 17 1)

end Marshal.Number
