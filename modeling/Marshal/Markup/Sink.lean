import Marshal.Markup.Escape
import Marshal.Markup.Name
import Marshal.Wire.Sink

/-!
# Writing markup

A start tag is held back until the element gets content, so that attributes can still be put on it
and an element without content is written as one tag. A wrapped sequence is one element with an
element for each item; a flattened one has no element of its own. A mapping has an `entry` for each
key, with a `key` and a `value`. A null can only be written for an entry, as one without `value`;
elsewhere it is left out.
-/

namespace Marshal.Markup

/-- A start tag. -/
structure Tag where
  name : String
  attributes : List (String × String)
deriving DecidableEq, Repr

/-- The inside of a start tag. -/
def Tag.inside (t : Tag) : String :=
  t.name ++ String.join (t.attributes.map fun a => " " ++ a.1 ++ "=\"" ++ escape a.2 ++ "\"")

/-- A structure that is open. The flag says that an `entry` closes with it. -/
inductive OpenElement where
  | object (name : String) (closesEntry : Bool)
  | sequence (item : String) (wrapper : Option String) (closesEntry : Bool)
  | mapping (name : String) (closesEntry : Bool)
deriving DecidableEq, Repr

/-- The state of writing a document: the text so far, the start tag held back, and the structures
that are open, the innermost first. -/
structure Writer where
  out : String
  pending : Option Tag
  stack : List OpenElement
deriving Repr

namespace Writer

/-- The declaration in front of a document. -/
def declaration : String := "<?xml version=\"1.0\" encoding=\"UTF-8\"?>"

/-- Appends to the text. -/
def emit (s : String) : Writing Writer Unit := modify fun w => { w with out := w.out ++ s }

/-- Refuses a text that may not be a name. -/
def checkName (name : String) : Writing Writer Unit :=
  if isName name then pure () else throw (.invalidName name .xml)

/-- Writes the start tag that was held back. -/
def flush : Writing Writer Unit := do
  match (← get).pending with
  | some t =>
    modify fun w => { w with pending := none }
    emit ("<" ++ t.inside ++ ">")
  | none => pure ()

/-- Begins an element, whose start tag is held back. -/
def openTag (name : String) : Writing Writer Unit := do
  checkName name
  flush
  modify fun w => { w with pending := some ⟨name, []⟩ }

/-- Ends an element, and the entry around it if the flag is set. -/
def closeTag (name : String) (closesEntry : Bool) : Writing Writer Unit := do
  match (← get).pending with
  | some t =>
    modify fun w => { w with pending := none }
    emit ("<" ++ t.inside ++ "/>")
  | none => emit ("</" ++ name ++ ">")
  if closesEntry then emit "</entry>"

/-- Writes an element that holds a text. -/
def textElement (name text : String) : Writing Writer Unit := do
  openTag name
  flush
  emit (escape text)
  closeTag name false

/-- Writes the beginning of an entry with its key. -/
def beginEntry (key : String) : Writing Writer Unit := do
  flush
  emit "<entry>"
  textElement "key" key

/-- The element name for the items of the innermost sequence. -/
def itemName : Writing Writer String := do
  match (← get).stack with
  | .sequence item _ _ :: _ => return item
  | _ => throw (.sinkState .itemOutsideSequence)

/-- Begins the element of a position; returns its name, and whether an entry closes with it. -/
def openAt : Position → Writing Writer (String × Bool)
  | .root name ns => do
    checkName name
    emit declaration
    openTag name
    match ns with
    | some n => modify fun w => { w with pending := some ⟨name, [("xmlns", n)]⟩ }
    | none => pure ()
    return (name, false)
  | .field name .element => do
    openTag name
    return (name, false)
  | .field name .attribute => throw (.sinkState (.structuredAttribute name))
  | .item => do
    let name ← itemName
    openTag name
    return (name, false)
  | .entry key => do
    beginEntry key
    openTag "value"
    return ("value", true)

/-- Puts a structure on the stack. -/
def push (e : OpenElement) : Writing Writer Unit := modify fun w => { w with stack := e :: w.stack }

/-- Takes the innermost structure off the stack. -/
def pop : Writing Writer (Option OpenElement) := do
  let top := (← get).stack.head?
  modify fun w => { w with stack := w.stack.drop 1 }
  return top

/-- Opens an object. -/
def beginObject (pos : Position) : Writing Writer Unit := do
  let (name, closesEntry) ← openAt pos
  push (.object name closesEntry)

/-- Closes an object. -/
def endObject : Writing Writer Unit := do
  match ← pop with
  | some (.object name closesEntry) => closeTag name closesEntry
  | _ => throw (.sinkState .noOpenObject)

/-- Opens a sequence or mapping. A flattened sequence has an element of its own only where it is
no field. -/
def beginContainer (pos : Position) : Container → Writing Writer Unit
  | .sequence item flattened => do
    match flattened, pos with
    | true, .field _ _ => push (.sequence item none false)
    | _, pos =>
      let (name, closesEntry) ← openAt pos
      push (.sequence item (some name) closesEntry)
  | .mapping => do
    let (name, closesEntry) ← openAt pos
    push (.mapping name closesEntry)

/-- Closes a sequence or mapping. -/
def endContainer : Writing Writer Unit := do
  match ← pop with
  | some (.sequence _ none _) => pure ()
  | some (.sequence _ (some name) closesEntry) => closeTag name closesEntry
  | some (.mapping name closesEntry) => closeTag name closesEntry
  | _ => throw (.sinkState .noOpenContainer)

/-- Puts an attribute on the start tag that is held back. -/
def putAttribute (name value : String) : Writing Writer Unit := do
  checkName name
  match (← get).pending with
  | some t =>
    modify fun w => { w with pending := some { t with attributes := t.attributes ++ [(name, value)] } }
  | none => throw (.attributeAfterContent name)

/-- Writes a scalar as an attribute or as the text of an element. -/
def scalar (pos : Position) (t : Token) : Writing Writer Unit := do
  match pos with
  | .field name .attribute => putAttribute name t.spelling
  | pos =>
    let (name, closesEntry) ← openAt pos
    flush
    emit (escape t.spelling)
    closeTag name closesEntry

/-- Writes a null, where one can be written. -/
def null : Position → Writing Writer Unit
  | .entry key => do
    beginEntry key
    emit "</entry>"
  | _ => pure ()

instance : Sink Writer where
  start := ⟨"", none, []⟩
  beginObject := beginObject
  endObject := endObject
  beginContainer := beginContainer
  endContainer := endContainer
  scalar := scalar
  null := null
  finish w :=
    if w.stack.isEmpty && w.pending.isNone then .ok w.out else .error (.sinkState .openElements)

end Writer

end Marshal.Markup
