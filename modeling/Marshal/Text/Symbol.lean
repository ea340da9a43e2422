/-!
# Input symbols

A document arrives as bytes, and some of them may not be UTF-8. `Symbol.decode` reads bytes into
symbols, each a character or a stretch of bytes that no character's encoding covers, so that a
reader can split a document at ASCII marks first and ask for valid text only where it needs text.
A stray stretch is maximal in the sense of the Unicode standard: one replacement character
stands for it.
-/

namespace Marshal.Text

/-- A unit of input: a character, or bytes that encode none. -/
inductive Symbol where
  | char (c : Char)
  | stray (bytes : List UInt8)
deriving DecidableEq, Repr

namespace Symbol

/-- What a leading byte promises: how many bytes follow, and the range of the next one. -/
def lead (b : UInt8) : Option (Nat × UInt8 × UInt8) :=
  if 0xC2 ≤ b && b ≤ 0xDF then some (1, 0x80, 0xBF)
  else if b == 0xE0 then some (2, 0xA0, 0xBF)
  else if b == 0xED then some (2, 0x80, 0x9F)
  else if 0xE1 ≤ b && b ≤ 0xEF then some (2, 0x80, 0xBF)
  else if b == 0xF0 then some (3, 0x90, 0xBF)
  else if 0xF1 ≤ b && b ≤ 0xF3 then some (3, 0x80, 0xBF)
  else if b == 0xF4 then some (3, 0x80, 0x8F)
  else none

/-- Up to `n` continuation bytes, the next one from the given range, and what follows them. -/
def continuation : Nat → UInt8 → UInt8 → List UInt8 → List UInt8 × List UInt8
  | 0, _, _, bs => ([], bs)
  | _ + 1, _, _, [] => ([], [])
  | n + 1, lo, hi, b :: bs =>
    if lo ≤ b && b ≤ hi then
      let (t, rest) := continuation n 0x80 0xBF bs
      (b :: t, rest)
    else ([], b :: bs)

theorem length_continuation_le (n : Nat) (lo hi : UInt8) (bs : List UInt8) :
    (continuation n lo hi bs).2.length ≤ bs.length := by
  induction n generalizing lo hi bs with
  | zero => simp [continuation]
  | succ n ih =>
    cases bs with
    | nil => simp [continuation]
    | cons b bs =>
      rw [continuation]
      split
      · exact Nat.le_succ_of_le (ih _ _ bs)
      · simp

/-- The code point of a leading byte followed by `n` continuation bytes. -/
def codePoint (b : UInt8) (tail : List UInt8) : Nat :=
  let high := b.toNat % Nat.pow 2 (6 - tail.length)
  tail.foldl (fun n c => n * 64 + c.toNat % 64) high

/-- Reads bytes as UTF-8. -/
def decode : List UInt8 → List Symbol
  | [] => []
  | b :: bs =>
    if b < 0x80 then .char (Char.ofNat b.toNat) :: decode bs
    else
      match lead b with
      | none => .stray [b] :: decode bs
      | some (n, lo, hi) =>
        let tail := (continuation n lo hi bs).1
        let symbol :=
          if tail.length = n then .char (Char.ofNat (codePoint b tail)) else .stray (b :: tail)
        symbol :: decode (continuation n lo hi bs).2
termination_by bs => bs.length
decreasing_by
  · simp
  · simp
  · have := length_continuation_le n lo hi bs
    simp only [List.length_cons]
    omega

/-- The symbols of a text. -/
def ofText (s : String) : List Symbol := s.toList.map .char

/-- The characters of a list of symbols, if it holds nothing else. -/
def chars? : List Symbol → Option (List Char)
  | [] => some []
  | .char c :: r => (chars? r).map (c :: ·)
  | .stray _ :: _ => none

/-- The text of a list of symbols, if it holds characters only. -/
def text? (symbols : List Symbol) : Option String := (chars? symbols).map String.ofList

/-- The text of a list of symbols, a replacement character standing for each stray stretch. -/
def lossyText (symbols : List Symbol) : String :=
  String.ofList <| symbols.map fun
    | .char c => c
    | .stray _ => Char.ofNat 0xFFFD

theorem chars?_map_char (cs : List Char) : chars? (cs.map .char) = some cs := by
  induction cs with
  | nil => rfl
  | cons c cs ih => simp [chars?, ih]

theorem text?_ofText (s : String) : text? (ofText s) = some s := by
  simp [text?, ofText, chars?_map_char]

end Symbol

/-- The text that bytes encode, if they are UTF-8. -/
def ofBytes? (bytes : List UInt8) : Option String := Symbol.text? (Symbol.decode bytes)

/-- The bytes that encode a text. -/
def toBytes (s : String) : List UInt8 := s.toUTF8.toList

end Marshal.Text
