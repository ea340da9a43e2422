import Marshal.Text.Letter
import Marshal.Text.LetterCase

/-!
# Words of an identifier

Identifiers from other naming habits are cut into words and joined again in Pascal case or snake
case. A cut is made at every character that is neither letter nor number, before a capital that
follows a small letter, and before the last capital of a row of capitals that a small letter
follows, so `XMLHttpRequest` has the words `XML`, `Http` and `Request`. Numbers neither cut nor
change what a cut after them sees.
-/

namespace Marshal.Text.Words

/-- The case of the letters passed since the last cut. -/
inductive Mode where
  | boundary
  | lower
  | upper
deriving DecidableEq, Repr

/-- The mode after `c`, when no cut is made there. -/
def Mode.after (m : Mode) (c : Char) : Mode :=
  if isLowercase c then .lower else if isUppercase c then .upper else m

/-- Cuts a piece without separators into words; `word` is the open word, last character first. -/
def split : Mode → List Char → List Char → List (List Char)
  | _, _, [] => []
  | _, word, [c] => [(c :: word).reverse]
  | m, word, c :: d :: rest =>
    let m' := m.after c
    if m' = .lower ∧ isUppercase d then
      (c :: word).reverse :: split .boundary [] (d :: rest)
    else if m = .upper ∧ isUppercase c ∧ isLowercase d then
      word.reverse :: split .boundary [c] (d :: rest)
    else
      split m' (c :: word) (d :: rest)

/-- The stretches of letters and numbers, empty ones included. -/
def pieces (cs : List Char) : List (List Char) := cs.splitOnP fun c => !isAlphanumeric c

/-- The words of an identifier. -/
def ofText (s : String) : List (List Char) :=
  (pieces s.toList).flatMap fun p => split .boundary [] p

/-- A word in small letters; a capital sigma at its end takes the final form. -/
def lowercase : List Char → List Char
  | [] => []
  | [c] => if c = 'Σ' then ['ς'] else toLower c
  | c :: rest => toLower c ++ lowercase rest

/-- A word with a capital in front and small letters after it. -/
def capitalize : List Char → List Char
  | [] => []
  | c :: rest => toUpper c ++ lowercase rest

/-- The words capitalized and joined without a separator. -/
def pascal (s : String) : String := String.ofList ((ofText s).flatMap capitalize)

/-- The words in small letters, joined by underscores. -/
def snake (s : String) : String :=
  "_".intercalate ((ofText s).map fun w => String.ofList (lowercase w))

end Marshal.Text.Words
