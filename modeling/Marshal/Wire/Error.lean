import Marshal.Catalogue.Error
import Marshal.Format

/-!
# Encoding and decoding errors

Why a value cannot be written and why a document cannot be read, with the wording of each reason.
-/

namespace Marshal

/-! ## Writing -/

/-- Why a sink cannot take an event in its present state. -/
inductive SinkFault where
  | memberWithoutKey
  | secondRoot
  | noOpenObject
  | noOpenContainer
  | openStructures
  | emptyDocument
  | openElements
  | itemOutsideSequence
  | structuredAttribute (name : String)
deriving DecidableEq, Repr

/-- The wording of a sink fault. -/
def SinkFault.message : SinkFault → String
  | .memberWithoutKey => "object member written without a key"
  | .secondRoot => "document already has a root value"
  | .noOpenObject => "no open object"
  | .noOpenContainer => "no open container"
  | .openStructures => "document finished with open structures"
  | .emptyDocument => "empty document"
  | .openElements => "document finished with open elements"
  | .itemOutsideSequence => "sequence item written outside a sequence"
  | .structuredAttribute n => "attribute " ++ quoted n ++ " cannot hold a structured value"

/-- Why a value cannot be written. -/
inductive EncodeError where
  | missingRequired (type field : String)
  | unexpectedNull (field : String)
  | typeMismatch (field expected found : String)
  | unknownEnumValue (enumeration value : String)
  | unknownEnumMember (enumeration member : String)
  | abstractInstance (type : String)
  | nonFiniteFloat (field : String)
  | attributeAfterContent (name : String)
  | invalidName (name : String) (format : Format)
  | sinkState (fault : SinkFault)
  | missingPlan (type : Nat)
  | formatMismatch (expected found : Format)
deriving DecidableEq, Repr

/-- The wording of an encoding error. -/
def EncodeError.message : EncodeError → String
  | .missingRequired t f => quoted t ++ " is missing required field " ++ quoted f
  | .unexpectedNull f => quoted f ++ " is not nullable"
  | .typeMismatch f e g => quoted f ++ " expected " ++ e ++ ", found " ++ g
  | .unknownEnumValue e v => "enum " ++ quoted e ++ " is closed and does not accept " ++ quoted v
  | .unknownEnumMember e m => "enum " ++ quoted e ++ " has no member " ++ quoted m
  | .abstractInstance t => quoted t ++ " is abstract and cannot be written directly"
  | .nonFiniteFloat f => quoted f ++ " holds a non-finite float"
  | .attributeAfterContent n => "attribute " ++ quoted n ++ " written after element content"
  | .invalidName n f => quoted n ++ " is not a valid " ++ f.name ++ " name"
  | .sinkState w => "invalid writer state: " ++ w.message
  | .missingPlan t => "no plan for type " ++ Number.natText t
  | .formatMismatch e f => "plan set targets " ++ f.name ++ ", codec writes " ++ e.name

/-! ## Reading -/

/-- What was being read when a document ended too early. -/
inductive Truncation where
  | insideElement
  | readingText
  | skippingElement
deriving DecidableEq, Repr

/-- The wording of the place where a document ended. -/
def Truncation.message : Truncation → String
  | .insideElement => "inside element"
  | .readingText => "while reading text content"
  | .skippingElement => "while skipping an element"

/-- Why a document is malformed, or is not what the reader was asked for. -/
inductive SyntaxFault where
  | json
  | markup
  | attribute
  | text
  | unknownReference (name : String)
  | missingRoot
  | truncated (during : Truncation)
  | nestedElement (name : String)
  | noValue
  | noScalar
  | notInObject
  | notInArray
  | notInSequence
  | notInMap
  | expectedElement (what : String)
  | expectedItem
  | valueBeforeKey
  | entryWithoutKey
  | emptyEntry (name : String)
  | unboundedSource
deriving DecidableEq, Repr

/-- Stands in a message for the exact place and nature of a lexical fault, which are not kept. -/
def unspecified : String := "<lib>"

/-- The wording of a syntax fault. -/
def SyntaxFault.message : SyntaxFault → String
  | .json => unspecified
  | .markup => "malformed markup: " ++ unspecified
  | .attribute => "malformed attribute: " ++ unspecified
  | .text => "invalid text: " ++ unspecified
  | .unknownReference n => "invalid text: unknown entity reference &" ++ n ++ ";"
  | .missingRoot => "document has no root element"
  | .truncated d => "document ended " ++ d.message
  | .nestedElement n => "element <" ++ n ++ "> inside scalar content"
  | .noValue => "no value at cursor"
  | .noScalar => "no scalar at cursor"
  | .notInObject => "not inside an object"
  | .notInArray => "not inside an array"
  | .notInSequence => "not inside a sequence"
  | .notInMap => "not inside a map"
  | .expectedElement w => "expected " ++ w ++ " element"
  | .expectedItem => "expected sequence item"
  | .valueBeforeKey => "map entry value before its key"
  | .entryWithoutKey => "map entry without a key"
  | .emptyEntry n => "empty map entry <" ++ n ++ "/>"
  | .unboundedSource => "source yields more parts than it holds"

/-- Why a document cannot be read. -/
inductive DecodeError where
  | missingRequired (type field : String)
  | unknownDiscriminator (type value : String)
  | unknownEnumValue (enumeration value : String)
  | unexpectedNull (field : String)
  | typeMismatch (field expected found : String)
  | invalidScalar (field kind value : String)
  | malformed (fault : SyntaxFault)
  | nestingTooDeep (field : String) (limit : Nat)
  | missingPlan (type : Nat)
  | formatMismatch (expected found : Format)
deriving DecidableEq, Repr

/-- The wording of a decoding error. -/
def DecodeError.message : DecodeError → String
  | .missingRequired t f => quoted t ++ " is missing required field " ++ quoted f
  | .unknownDiscriminator t v => "unknown discriminator value " ++ quoted v ++ " for " ++ quoted t
  | .unknownEnumValue e v => "enum " ++ quoted e ++ " does not accept " ++ quoted v
  | .unexpectedNull f => quoted f ++ " is not nullable"
  | .typeMismatch f e g => quoted f ++ " expected " ++ e ++ ", found " ++ g
  | .invalidScalar f k v => quoted f ++ " holds invalid " ++ k ++ " " ++ quoted v
  | .malformed w => "malformed payload: " ++ w.message
  | .nestingTooDeep f n => quoted f ++ " nests deeper than " ++ Number.natText n ++ " levels"
  | .missingPlan t => "no plan for type " ++ Number.natText t
  | .formatMismatch e f => "plan set targets " ++ f.name ++ ", codec reads " ++ e.name

end Marshal
