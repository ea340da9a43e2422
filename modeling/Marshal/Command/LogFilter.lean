import Marshal.Text.Blank
import Marshal.Text.Letter

/-!
# Log filters

A log filter is a list of directives separated by commas. A directive is a level, the name of a part
of the program, or both with an equals sign between them. A filter says what is logged, and nothing
but its form matters here.
-/

namespace Marshal.Command

open Text

/-- The words for levels. A digit from 0 to 5 stands for a level too. -/
def levelWords : List String :=
  ["off", "error", "warn", "info", "debug", "trace", "0", "1", "2", "3", "4", "5"]

/-- Whether a text is a level, in any case. -/
def isLevel (s : List Char) : Bool := levelWords.any (sameIgnoringCase (String.ofList s))

/-- Whether a text can be the name of a part of the program. -/
def isPartName (s : List Char) : Bool :=
  !s.isEmpty && s.all fun c => isAlphanumeric c || c == '_' || c == ':' || c == '-'

/-- Whether a text is a directive. -/
def isDirective (s : List Char) : Bool :=
  match s.splitOn '=' with
  | [whole] => isLevel whole || isPartName whole
  | [part, level] => isPartName part && (level.isEmpty || isLevel level)
  | _ => false

/-- Whether a text is a log filter. -/
def isLogFilter (s : String) : Bool :=
  (s.toList.splitOn ',').all fun d => d.isEmpty || isDirective d

end Marshal.Command
