import Marshal.Json.Sink
import Marshal.Json.Source
import Marshal.Markup.Sink
import Marshal.Markup.Source
import Marshal.Wire.Decode
import Marshal.Wire.Encode

/-!
# Documents

Objects are written as documents of a format and read back, along plans made for the same format.
Plans for another format are refused before anything else is looked at.
-/

namespace Marshal.Document

/-- The document of an object. -/
def write (format : Format) (plans : PlanSet) (i : Instance) : Except EncodeError String :=
  if plans.format = format then
    match format with
    | .json => encode Json.Writer plans i
    | .xml => encode Markup.Writer plans i
  else .error (.formatMismatch format plans.format)

/-- The object in a document. -/
def read (format : Format) (plans : PlanSet) (declared : Handle) (bytes : List UInt8) :
    Except DecodeError Instance :=
  if plans.format = format then
    match format with
    | .json => do decode plans declared (← Json.Reader.ofBytes bytes)
    | .xml => do decode plans declared (← Markup.Reader.ofBytes bytes)
  else .error (.formatMismatch format plans.format)

theorem read_of_ne {format : Format} {plans : PlanSet} (h : plans.format ≠ format)
    (declared : Handle) (bytes : List UInt8) :
    read format plans declared bytes = .error (.formatMismatch format plans.format) := if_neg h

end Marshal.Document
