import Marshal.Wire.Token

/-!
# Sinks

What a format offers to the encoder: events that open and close structures and write scalars, each
at a position of the enclosing structure. An event that fails leaves the sink in whatever state it
had reached.
-/

namespace Marshal

/-- Where the next value stands in the enclosing structure. -/
inductive Position where
  | root (name : String) (rootNamespace : Option String)
  | field (name : String) (placement : Placement)
  | item
  | entry (key : String)
deriving DecidableEq, Repr

/-- The name of a position in error messages. -/
def Position.label : Position → String
  | .root name _ => name
  | .field name _ => name
  | .item => "[item]"
  | .entry key => key

/-- What is opened by the event for containers. -/
inductive Container where
  | sequence (item : String) (flattened : Bool)
  | mapping
deriving DecidableEq, Repr

/-- Writing to a sink with states `σ`. -/
abbrev Writing (σ : Type) := EStateM EncodeError σ

/-- A sink for one document. -/
class Sink (σ : Type) where
  /-- The state before the first event. -/
  start : σ
  /-- Opens an object. -/
  beginObject : Position → Writing σ Unit
  /-- Closes the innermost object. -/
  endObject : Writing σ Unit
  /-- Opens a sequence or mapping. -/
  beginContainer : Position → Container → Writing σ Unit
  /-- Closes the innermost sequence or mapping. -/
  endContainer : Writing σ Unit
  /-- Writes a scalar. -/
  scalar : Position → Token → Writing σ Unit
  /-- Writes the mark of an explicit null. -/
  null : Position → Writing σ Unit
  /-- The document, if every structure is closed. -/
  finish : σ → Except EncodeError String

/-- A computation without state as a step of writing. -/
def Writing.lift {σ α : Type} : Except EncodeError α → Writing σ α
  | .ok a => pure a
  | .error e => throw e

end Marshal
