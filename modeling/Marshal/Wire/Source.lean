import Marshal.Wire.Sink

/-!
# Sources

What a format offers to the decoder: a cursor. Moving calls put the cursor on a value, and one value
call then takes it. A moving call that reports the end of its structure also leaves that structure.
A call that fails leaves the source in whatever state it had reached.
-/

namespace Marshal

/-- Reading from a source with states `σ`. -/
abbrev Reading (σ : Type) := EStateM DecodeError σ

/-- A source of one document. -/
class Source (σ : Type) where
  /-- Enters the object at the cursor. -/
  beginObject : Reading σ Unit
  /-- Moves to the next field of the current object, or leaves it. -/
  nextKey : Reading σ (Option (String × Placement))
  /-- The text of a scalar field of the current object, taking nothing. -/
  peekField : String → Placement → Reading σ (Option String)
  /-- Takes the value at the cursor if it is an explicit null. -/
  isNull : Reading σ Bool
  /-- Takes the scalar at the cursor. -/
  scalar : Reading σ Token
  /-- Enters the sequence or mapping at the cursor. -/
  beginContainer : Container → Reading σ Unit
  /-- Moves to the next item of the current sequence, or leaves it. -/
  nextElement : Reading σ Bool
  /-- Moves to the value of the next entry of the current mapping, or leaves it. -/
  nextEntry : Reading σ (Option String)
  /-- Takes the value at the cursor and drops it. -/
  skip : Reading σ Unit
  /-- A bound on the number of parts that any structure still holds. -/
  bound : σ → Nat

/-- A computation without state as a step of reading. -/
def Reading.lift {σ α : Type} : Except DecodeError α → Reading σ α
  | .ok a => pure a
  | .error e => throw e

/-- A reading fails with a syntax fault. -/
def Reading.malformed {σ α : Type} (fault : SyntaxFault) : Reading σ α := throw (.malformed fault)

end Marshal
