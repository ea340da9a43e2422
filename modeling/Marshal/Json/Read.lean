import Marshal.Json.Number
import Marshal.Text.Symbol

/-!
# Reading JSON

A strict reader: nothing but the grammar is accepted, no text may follow the value, and arrays and
objects may stand in each other at most 127 deep. The recursion is on the depth still allowed. A loop
over characters, items or members takes at least one character a round, so the text it starts from
bounds it: it drops one character of that text a round, which costs nothing to count.

Where only some members of a document matter, the others are read laxly: they must have the form of
a value, at any depth, but need not denote one.
-/

namespace Marshal.Json

/-- How deep arrays and objects may stand in each other. -/
def depthLimit : Nat := 127

/-- Whether a character may stand between tokens. -/
def isSpace (c : Char) : Bool := c == ' ' || c == '\t' || c == '\n' || c == '\r'

/-- Drops the blanks in front of a token. -/
def skip (cs : List Char) : List Char := cs.dropWhile isSpace

/-! ## Strings -/

/-- The value of a hexadecimal digit. -/
def hexValue? (c : Char) : Option Nat :=
  if '0' ≤ c ∧ c ≤ '9' then some (c.toNat - '0'.toNat)
  else if 'a' ≤ c ∧ c ≤ 'f' then some (c.toNat - 'a'.toNat + 10)
  else if 'A' ≤ c ∧ c ≤ 'F' then some (c.toNat - 'A'.toNat + 10)
  else none

/-- The value of four hexadecimal digits. -/
def hexQuad? (a b c d : Char) : Option Nat := do
  return (((← hexValue? a) * 16 + (← hexValue? b)) * 16 + (← hexValue? c)) * 16 + (← hexValue? d)

/-- The character that a one-letter escape stands for. -/
def escaped? (c : Char) : Option Char :=
  if c = '"' ∨ c = '\\' ∨ c = '/' then some c
  else if c = 'b' then some (Char.ofNat 8)
  else if c = 'f' then some (Char.ofNat 12)
  else if c = 'n' then some '\n'
  else if c = 'r' then some '\r'
  else if c = 't' then some '\t'
  else none

/-- The character of a surrogate pair. -/
def surrogatePair? (high low : Nat) : Option Char :=
  if 0xDC00 ≤ low ∧ low ≤ 0xDFFF then
    some (Char.ofNat (0x10000 + (high - 0xD800) * 0x400 + (low - 0xDC00)))
  else none

/-- The character of the code unit `n`, and of the escape after it if the unit is the first half of
a surrogate pair. -/
def codeUnit? (n : Nat) (rest : List Char) : Option (Char × List Char) :=
  if 0xD800 ≤ n ∧ n ≤ 0xDBFF then
    match rest with
    | '\\' :: 'u' :: a :: b :: c :: d :: rest => do
      let low ← hexQuad? a b c d
      let ch ← surrogatePair? n low
      return (ch, rest)
    | _ => none
  else if 0xDC00 ≤ n ∧ n ≤ 0xDFFF then none
  else some (Char.ofNat n, rest)

/-- The character that the text after a backslash stands for. -/
def escape? : List Char → Option (Char × List Char)
  | [] => none
  | 'u' :: rest =>
    match rest with
    | a :: b :: c :: d :: rest => do codeUnit? (← hexQuad? a b c d) rest
    | _ => none
  | c :: rest => (escaped? c).map fun e => (e, rest)

/-- Passes the text after a backslash without asking whether a code unit stands for a character. -/
def passEscape? : List Char → Option (Char × List Char)
  | [] => none
  | 'u' :: rest =>
    match rest with
    | a :: b :: c :: d :: rest => (hexQuad? a b c d).map fun _ => ('u', rest)
    | _ => none
  | c :: rest => (escaped? c).map fun e => (e, rest)

/-- How the scalars of a text are read. -/
structure Lexis where
  escape? : List Char → Option (Char × List Char)
  number? : List Char → Option (Json × List Char)

/-- Every scalar must denote something. -/
def strict : Lexis := ⟨escape?, number?⟩

/-- Scalars must have their form, and what they denote is dropped. -/
def lax : Lexis := ⟨passEscape?, fun cs => (takeNumber? cs).map fun (_, rest) => (.null, rest)⟩

/-- The content of a string up to its closing quote. -/
def stringBody? (lexis : Lexis) : List Char → List Char → Option (List Char × List Char)
  | [], _ => none
  | _ :: _, [] => none
  | _ :: fuel, c :: cs =>
    if c = '"' then some ([], cs)
    else if c = '\\' then do
      let (e, cs) ← lexis.escape? cs
      let (body, cs) ← stringBody? lexis fuel cs
      return (e :: body, cs)
    else if c.toNat < 0x20 then none
    else do
      let (body, cs) ← stringBody? lexis fuel cs
      return (c :: body, cs)

/-- Reads a string whose opening quote has been passed. -/
def string? (lexis : Lexis) (cs : List Char) : Option (String × List Char) :=
  (stringBody? lexis cs cs).map fun (body, rest) => (String.ofList body, rest)

/-! ## Values -/

/-- Cuts a keyword off the front. -/
def keyword? (word : String) (j : Json) (cs : List Char) : Option (Json × List Char) :=
  if word.toList.isPrefixOf cs then some (j, cs.drop word.length) else none

/-- Reads a value that is neither array nor object. -/
def scalar? (lexis : Lexis) : List Char → Option (Json × List Char)
  | [] => none
  | c :: cs =>
    if c = '"' then (string? lexis cs).map fun (s, rest) => (.text s, rest)
    else if c = 't' then keyword? "true" (.bool true) (c :: cs)
    else if c = 'f' then keyword? "false" (.bool false) (c :: cs)
    else if c = 'n' then keyword? "null" .null (c :: cs)
    else lexis.number? (c :: cs)

/-- Reads the items of an array, the first not yet passed, up to the closing bracket. -/
def items? (value? : List Char → Option (Json × List Char)) :
    List Char → List Char → Option (List Json × List Char)
  | [], _ => none
  | _ :: fuel, cs => do
    let (j, cs) ← value? cs
    match skip cs with
    | ',' :: cs =>
      let (rest, cs) ← items? value? fuel cs
      return (j :: rest, cs)
    | ']' :: cs => return ([j], cs)
    | _ => none

/-- Reads a member: a key, a colon and a value, which is read as the key asks. -/
def member? (lexis : Lexis) (value? : String → List Char → Option (Json × List Char))
    (cs : List Char) : Option ((String × Json) × List Char) := do
  match skip cs with
  | '"' :: cs =>
    let (key, cs) ← string? lexis cs
    match skip cs with
    | ':' :: cs =>
      let (j, cs) ← value? key cs
      return ((key, j), cs)
    | _ => none
  | _ => none

/-- Reads the members of an object, the first not yet passed, up to the closing brace. -/
def members? (lexis : Lexis) (value? : String → List Char → Option (Json × List Char)) :
    List Char → List Char → Option (List (String × Json) × List Char)
  | [], _ => none
  | _ :: fuel, cs => do
    let (m, cs) ← member? lexis value? cs
    match skip cs with
    | ',' :: cs =>
      let (rest, cs) ← members? lexis value? fuel cs
      return (m :: rest, cs)
    | '}' :: cs => return ([m], cs)
    | _ => none

/-- Reads an array whose opening bracket has been passed. -/
def array? (value? : List Char → Option (Json × List Char)) (cs : List Char) :
    Option (Json × List Char) :=
  match skip cs with
  | ']' :: cs => some (.array [], cs)
  | _ => (items? value? cs cs).map fun (js, rest) => (.array js, rest)

/-- Reads an object whose opening brace has been passed, with every member as written. -/
def object? (lexis : Lexis) (value? : String → List Char → Option (Json × List Char))
    (cs : List Char) : Option (Json × List Char) :=
  match skip cs with
  | '}' :: cs => some (.object [], cs)
  | _ => (members? lexis value? cs cs).map fun (ms, rest) => (.object ms, rest)

/-- Reads a value with at most `depth` arrays and objects in each other. -/
def value? (lexis : Lexis) : Nat → List Char → Option (Json × List Char)
  | 0, cs => scalar? lexis (skip cs)
  | depth + 1, cs =>
    match skip cs with
    | '[' :: cs => array? (value? lexis depth) cs
    | '{' :: cs => object? lexis (fun _ => value? lexis depth) cs
    | cs => scalar? lexis cs

/-- What was read, if nothing but blanks follows it. -/
def alone? : Json × List Char → Option Json
  | (j, rest) => if skip rest = [] then some j else none

/-- The tree, as written, of a text that holds one value and nothing else. -/
def written? (cs : List Char) : Option Json := (value? strict depthLimit cs).bind alone?

/-- The merged tree of a text that holds one value and nothing else. -/
def ofChars? (cs : List Char) : Option Json := (written? cs).map merged

/-- The merged tree of the JSON text that bytes encode. -/
def ofBytes? (bytes : List UInt8) : Option Json := do
  ofChars? (← Text.ofBytes? bytes).toList

/-- The tree, as written, of a text that holds a record: the members of an object under other keys
than `keys` are read laxly. -/
def record? (keys : List String) (cs : List Char) : Option Json :=
  match skip cs with
  | '{' :: cs =>
    let value? (key : String) (cs : List Char) : Option (Json × List Char) :=
      if key ∈ keys then value? strict (depthLimit - 1) cs else value? lax cs.length cs
    (object? strict value? cs).bind alone?
  | cs => written? cs

end Marshal.Json
