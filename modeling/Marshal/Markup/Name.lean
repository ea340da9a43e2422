import Marshal.Text.Letter

/-!
# Names in markup

What the writer takes for the name of an element or attribute: a letter, underscore or colon, and
then letters, numbers, hyphens, points, underscores, colons and middle dots.
-/

namespace Marshal.Markup

/-- Whether a name may begin with a character. -/
def isNameStart (c : Char) : Bool := Text.isAlphabetic c || c == '_' || c == ':'

/-- Whether a name may go on with a character. -/
def isNameRest (c : Char) : Bool :=
  Text.isAlphanumeric c || c == '-' || c == '.' || c == '_' || c == ':' || c.toNat == 0xB7

/-- Whether a text may name an element or attribute. -/
def isName (s : String) : Bool :=
  match s.toList with
  | [] => false
  | c :: cs => isNameStart c && cs.all isNameRest

end Marshal.Markup
