import Marshal.Number.Integer
import Marshal.Text.Blank
import Marshal.Time.Civil

/-!
# Instants

Points in universal time with nanoseconds, their ISO 8601 text and its reading. An instant inside a
leap second is counted at the second before it, with a billion or more nanoseconds, and is written
with the second `60`. The fraction has three, six or nine digits, the fewest that lose nothing.

Reading knows two forms. The first has fields of fixed width and an offset from universal time, or
`Z`. The second always ends in `Z`, and its fields may be shorter, and blanks may stand before them.
-/

namespace Marshal.Time

/-- Seconds since 1970-01-01T00:00:00Z and nanoseconds within the second. -/
structure Instant where
  seconds : Int
  nanos : Nat
deriving DecidableEq, Repr

/-! ## Writing -/

/-- Years from 0 to 9999 have four digits; others a sign and at least four. -/
def yearText (y : Int) : String :=
  if 0 ≤ y ∧ y ≤ 9999 then Number.paddedText 4 y.natAbs
  else (if y < 0 then "-" else "+") ++ Number.paddedText 4 y.natAbs

/-- A point and three, six or nine digits. -/
def fractionText (nanos : Nat) : String :=
  "." ++
    if nanos % 1000000 = 0 then Number.paddedText 3 (nanos / 1000000)
    else if nanos % 1000 = 0 then Number.paddedText 6 (nanos / 1000)
    else Number.paddedText 9 nanos

/-- The ISO 8601 text of an instant. -/
def Instant.text (t : Instant) : String :=
  let date := Date.ofDays (t.seconds / 86400)
  let clock := (t.seconds % 86400).toNat
  let leap := 1000000000 ≤ t.nanos
  let second := clock % 60 + (if leap then 1 else 0)
  yearText date.year ++ "-" ++ Number.paddedText 2 date.month ++ "-" ++
    Number.paddedText 2 date.day ++ "T" ++ Number.paddedText 2 (clock / 3600) ++ ":" ++
    Number.paddedText 2 (clock / 60 % 60) ++ ":" ++ Number.paddedText 2 second ++
    fractionText (t.nanos % 1000000000) ++ "Z"

/-! ## Reading -/

/-- The fields of a date and a time of day, as they were read. -/
structure Fields where
  year : Int
  month : Nat
  day : Nat
  hour : Nat
  minute : Nat
  second : Nat
  nanos : Nat

/-- The instant that fields denote at an offset of `offset` seconds, if the day and the time of day
exist. The second 60 is always accepted. -/
def Fields.instant? (f : Fields) (offset : Int) : Option Instant :=
  let date : Date := ⟨f.year, f.month, f.day⟩
  if date.isValid ∧ f.hour < 24 ∧ f.minute < 60 ∧ f.second ≤ 60 then
    let leap := f.second = 60
    let second := if leap then 59 else f.second
    some
      { seconds := date.toDays * 86400 + (f.hour * 3600 + f.minute * 60 + second : Nat) - offset
        nanos := f.nanos + (if leap then 1000000000 else 0) }
  else none

/-- Reads at least `least` and at most `most` digits from the front. -/
def digits? (least most : Nat) (cs : List Char) : Option (Nat × List Char) :=
  let ds := (cs.take most).takeWhile Char.isDigit
  if least ≤ ds.length then some (Number.ofDigits ds, cs.drop ds.length) else none

/-- Reads one given character. -/
def literal? (c : Char) : List Char → Option (List Char)
  | d :: cs => if c = d then some cs else none
  | [] => none

/-- Reads the mark between a date and a time of day. -/
def separator? : List Char → Option (List Char)
  | c :: cs => if c = 'T' ∨ c = 't' ∨ c = ' ' then some cs else none
  | [] => none

/-- Reads an optional point with digits after it as nanoseconds; digits after the ninth are
dropped. -/
def fraction? : List Char → Option (Nat × List Char)
  | '.' :: cs =>
    let ds := (cs.take 9).takeWhile Char.isDigit
    if ds = [] then none
    else
      some (Number.ofDigits ds * Nat.pow 10 (9 - ds.length), (cs.drop ds.length).dropWhile Char.isDigit)
  | cs => some (0, cs)

/-- Reads `Z`, or a sign with hours and minutes, as seconds of offset. -/
def offset? : List Char → Option (Int × List Char)
  | [] => none
  | c :: cs =>
    if c = 'Z' ∨ c = 'z' then some (0, cs)
    else if c = '+' ∨ c = '-' ∨ c = '−' then do
      let (hours, cs) ← digits? 2 2 cs
      let cs ← literal? ':' cs
      let (minutes, cs) ← digits? 2 2 cs
      if minutes < 60 ∧ hours < 24 then
        let seconds : Int := (hours * 3600 + minutes * 60 : Nat)
        some (if c = '+' then seconds else -seconds, cs)
      else none
    else none

/-- Reads the form with fields of fixed width and an offset. -/
def readFixed? (cs : List Char) : Option Instant := do
  let (year, cs) ← digits? 4 4 cs
  let cs ← literal? '-' cs
  let (month, cs) ← digits? 2 2 cs
  let cs ← literal? '-' cs
  let (day, cs) ← digits? 2 2 cs
  let cs ← separator? cs
  let (hour, cs) ← digits? 2 2 cs
  let cs ← literal? ':' cs
  let (minute, cs) ← digits? 2 2 cs
  let cs ← literal? ':' cs
  let (second, cs) ← digits? 2 2 cs
  let (nanos, cs) ← fraction? cs
  let (offset, cs) ← offset? cs
  if cs = [] then
    Fields.instant? ⟨year, month, day, hour, minute, second, nanos⟩ offset
  else none

/-- Reads a year after optional blanks: up to four digits, or a sign and any number of digits. -/
def looseYear? (cs : List Char) : Option (Int × List Char) :=
  match Text.dropBlank cs with
  | '-' :: cs => (digits? 1 cs.length cs).map fun (n, cs) => (-(n : Int), cs)
  | '+' :: cs => (digits? 1 cs.length cs).map fun (n, cs) => ((n : Int), cs)
  | cs => (digits? 1 4 cs).map fun (n, cs) => ((n : Int), cs)

/-- Reads one or two digits after optional blanks. -/
def loosePair? (cs : List Char) : Option (Nat × List Char) := digits? 1 2 (Text.dropBlank cs)

/-- Reads the form that ends in `Z` and lets fields be short. -/
def readLoose? (cs : List Char) : Option Instant := do
  let (year, cs) ← looseYear? cs
  let cs ← literal? '-' cs
  let (month, cs) ← loosePair? cs
  let cs ← literal? '-' cs
  let (day, cs) ← loosePair? cs
  let cs ← literal? 'T' cs
  let (hour, cs) ← loosePair? cs
  let cs ← literal? ':' cs
  let (minute, cs) ← loosePair? cs
  let cs ← literal? ':' cs
  let (second, cs) ← loosePair? cs
  let (nanos, cs) ← fraction? cs
  let cs ← literal? 'Z' cs
  if cs = [] then
    Fields.instant? ⟨year, month, day, hour, minute, second, nanos⟩ 0
  else none

/-- Reads an instant from its text, in the first form that fits. -/
def Instant.read? (s : String) : Option Instant :=
  (readFixed? s.toList).orElse fun _ => readLoose? s.toList

end Marshal.Time
