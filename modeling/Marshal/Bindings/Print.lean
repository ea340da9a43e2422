import Marshal.Bindings.Basic

/-!
# The text of declarations

The declarations as Rust source. Words of documents stand in string literals, where they are escaped,
and in comments, where they are not.
-/

namespace Marshal.Bindings

/-- The Rust type of a primitive. -/
def primitiveText : Primitive → String
  | .string => "String"
  | .boolean => "bool"
  | .integer => "i32"
  | .long => "i64"
  | .float => "f32"
  | .double => "f64"
  | .timestamp => "chrono::DateTime<chrono::Utc>"
  | .blob => "bytes::Bytes"

/-- The text of a field type. -/
def FieldType.text : FieldType → String
  | .unit => "()"
  | .primitive p => primitiveText p
  | .named n => n
  | .boxed n => "Box<" ++ n ++ ">"
  | .option t => "Option<" ++ t.text ++ ">"
  | .sequence t => "Vec<" ++ t.text ++ ">"
  | .mapping t => "BTreeMap<String, " ++ t.text ++ ">"

/-! ## String literals -/

/-- A character in a string literal. Quotes and backslashes have a backslash before them, and what
is not printable ASCII stands as its code point. -/
def literalChar (c : Char) : List Char :=
  if c = '\t' then ['\\', 't']
  else if c = '\r' then ['\\', 'r']
  else if c = '\n' then ['\\', 'n']
  else if c = '\'' ∨ c = '"' ∨ c = '\\' then ['\\', c]
  else if 0x20 ≤ c.toNat ∧ c.toNat ≤ 0x7e then [c]
  else ['\\', 'u', '\x7b'] ++ Nat.toDigits 16 c.toNat ++ ['\x7d']

/-- The inside of a string literal. -/
def literal (s : String) : String := String.ofList (s.toList.flatMap literalChar)

/-! ## Declarations -/

/-- The lines of the enumeration of some words. -/
def wordsLines (name : String) (labels : List Label) (isOpen : Bool) : List String :=
  ["/// " ++ name ++ " enum.", "#[derive(Debug, Clone, PartialEq, Eq, Hash)]",
    "pub enum " ++ name ++ " \x7b"] ++
  (labels.flatMap fun l => ["    /// \x60" ++ l.word ++ "\x60", "    " ++ l.name ++ ","]) ++
  (if isOpen then ["    /// A wire value outside the known members.", "    Unknown(String),"]
   else []) ++
  ["\x7d", "", "impl " ++ name ++ " \x7b", "    /// Returns the wire value.", "    #[must_use]",
    if isOpen then "    pub fn as_str(&self) -> &str \x7b"
    else "    pub fn as_str(&self) -> &'static str \x7b",
    "        match self \x7b"] ++
  (labels.map fun l => "            Self::" ++ l.name ++ " => \"" ++ literal l.word ++ "\",") ++
  (if isOpen then ["            Self::Unknown(raw) => raw,"] else []) ++
  ["        \x7d", "    \x7d", "\x7d", "",
    "impl std::fmt::Display for " ++ name ++ " \x7b",
    "    fn fmt(&self, f: &mut std::fmt::Formatter<'_>) -> std::fmt::Result \x7b",
    "        f.write_str(self.as_str())", "    \x7d", "\x7d", ""]

/-- The lines of the enumeration of a hierarchy. -/
def variantsLines (name property : String) (variants : List Variant) : List String :=
  ["/// " ++ name ++ " variants, selected by \x60" ++ property ++ "\x60.",
    "#[derive(Debug, Clone, PartialEq)]", "pub enum " ++ name ++ " \x7b"] ++
  (variants.flatMap fun v =>
    ["    /// \x60" ++ property ++ "\x60 = \x60" ++ v.word ++ "\x60.",
      "    " ++ v.name ++ "(" ++ v.payload ++ "),"]) ++
  ["\x7d", ""]

/-- The lines of a record. -/
def recordLines (name title : String) (fields : List Field) : List String :=
  ["/// " ++ title ++ ".", "#[derive(Debug, Clone, PartialEq)]",
    "pub struct " ++ name ++ " \x7b"] ++
  (fields.flatMap fun f =>
    ["    /// Wire name \x60" ++ f.wire ++ "\x60.",
      "    pub " ++ f.name ++ ": " ++ f.type.text ++ ","]) ++
  ["\x7d", ""]

/-- The lines of a declaration. -/
def Declaration.lines : Declaration → List String
  | .words n labels isOpen => wordsLines n labels isOpen
  | .variants n property vs => variantsLines n property vs
  | .record n title fields => recordLines n title fields

/-! ## Files -/

/-- Whether a text stands somewhere in another. -/
def occursIn (part : List Char) : List Char → Bool
  | [] => part.isEmpty
  | c :: cs => part.isPrefixOf (c :: cs) || occursIn part cs

/-- Lines as a text. -/
def unlines (lines : List String) : String := String.join (lines.map fun l => l ++ "\n")

/-- The file of some declarations. Whatever looks like an ordered map asks for its import. -/
def fileText (ds : List Declaration) : String :=
  let body := unlines (ds.flatMap Declaration.lines)
  let imports :=
    if occursIn "BTreeMap<".toList body.toList then ["use std::collections::BTreeMap;", ""] else []
  unlines (["//! Auto-generated by wireplan-gen. DO NOT EDIT.", ""] ++ imports) ++ body

end Marshal.Bindings
