import Marshal.Table
import Marshal.Text.Blank
import Marshal.Text.Symbol
import Marshal.Text.Words
import Marshal.Number.Text
import Marshal.Base64
import Marshal.Time.Instant
import Marshal.Format
import Marshal.Catalogue.Seal
import Marshal.Value
import Marshal.Json.Print
import Marshal.Json.Read
import Marshal.Plan.Build
import Marshal.Plan.Render
import Marshal.Wire.Encode
import Marshal.Wire.Decode
import Marshal.Json.Sink
import Marshal.Json.Source
import Marshal.Markup.Sink
import Marshal.Markup.Lexer
import Marshal.Markup.Source
import Marshal.Document
import Marshal.Json.Record
import Marshal.Schema.Read
import Marshal.Schema.Load
import Marshal.Bindings.Build
import Marshal.Bindings.Print
import Marshal.Settings
import Marshal.Command.Run
import Marshal.Main
import Marshal.Proofs.Outcome
import Marshal.Proofs.Table.Ascending
import Marshal.Proofs.Catalogue.Lineage
import Marshal.Proofs.Catalogue.Changes
import Marshal.Proofs.Catalogue.Rules
import Marshal.Proofs.Catalogue.Forest
import Marshal.Proofs.Catalogue.Reachable
import Marshal.Proofs.Catalogue.Hierarchies
import Marshal.Proofs.Catalogue.Sealing
import Marshal.Proofs.Plan.Objects
import Marshal.Proofs.Plan.Sets
import Marshal.Proofs.Plan.Refusal
import Marshal.Proofs.Plan.Mirror
import Marshal.Proofs.Time.Civil
import Marshal.Proofs.Value.Typing
import Marshal.Proofs.Time.Instant
import Marshal.Proofs.Wire.Reading
import Marshal.Proofs.Wire.Objects
import Marshal.Proofs.Plan.Dispatch
import Marshal.Proofs.Wire.Soundness
import Marshal.Proofs.Text.Symbol
import Marshal.Proofs.Number.Decimal
import Marshal.Proofs.Json.Number
import Marshal.Proofs.Json.Double
import Marshal.Proofs.Json.Outline
import Marshal.Proofs.Json.String
import Marshal.Proofs.Json.Text
import Marshal.Proofs.Text.Base64
import Marshal.Proofs.Time.Text
import Marshal.Proofs.Time.Lossless
import Marshal.Proofs.Wire.Draft
import Marshal.Proofs.Wire.Acceptance
import Marshal.Proofs.Wire.Tree
import Marshal.Proofs.Wire.Parts
import Marshal.Proofs.Wire.Subtypes
import Marshal.Proofs.Wire.Walk
import Marshal.Proofs.Wire.Likeness
import Marshal.Proofs.Value.Canonical
import Marshal.Proofs.Wire.Scalars
import Marshal.Proofs.Json.Drafts
import Marshal.Proofs.Json.Rendering
import Marshal.Proofs.Json.Runs
import Marshal.Proofs.Json.RoundTrip
import Marshal.Proofs.Markup.Escape
import Marshal.Proofs.Markup.Tags
import Marshal.Proofs.Markup.Events
import Marshal.Proofs.Markup.Content
import Marshal.Proofs.Markup.Elements
import Marshal.Proofs.Markup.Walk
import Marshal.Proofs.Markup.Written
import Marshal.Proofs.Json.Walk
import Marshal.Proofs.Markup.Drafts
import Marshal.Proofs.Markup.Parts
import Marshal.Proofs.Document.Slicing
import Marshal.Proofs.Markup.Survival
import Marshal.Proofs.Number.Nearest
import Marshal.Proofs.Number.Reading
import Marshal.Proofs.Markup.Scalars
import Marshal.Proofs.Markup.Collections
import Marshal.Proofs.Markup.Properties
import Marshal.Proofs.Markup.Objects
import Marshal.Proofs.Document.RoundTrip
import Marshal.Proofs.Document.Dispatch
import Marshal.Proofs.Json.Levels
import Marshal.Proofs.Wire.Origins
import Marshal.Proofs.Json.Normal
import Marshal.Proofs.Json.Completion
import Marshal.Proofs.Document.Normalisation
import Marshal.Proofs.Document.Capture
import Marshal.Proofs.Number.Shortest
import Marshal.Proofs.Markup.Wholeness
import Marshal.Proofs.Document.Retention
import Marshal.Proofs.Document.Enumerations
import Marshal.Proofs.Catalogue.Runs
import Marshal.Proofs.Plan.Closure
import Marshal.Proofs.Plan.Order
import Marshal.Proofs.Plan.Ancestry
import Marshal.Proofs.Wire.Events
import Marshal.Proofs.Wire.Conduct
import Marshal.Proofs.Wire.Failure
import Marshal.Proofs.Markup.Conformance
import Marshal.Proofs.Json.Conformance
import Marshal.Proofs.Document.Conformance
import Marshal.Proofs.Wire.Instantiation
import Marshal.Proofs.Markup.Faults
import Marshal.Proofs.Json.Faults
import Marshal.Proofs.Document.Closure
import Marshal.Proofs.Markup.Balance
import Marshal.Proofs.Markup.Consumption
import Marshal.Proofs.Markup.Words
import Marshal.Proofs.Document.Repetition
import Marshal.Proofs.Wire.Order
import Marshal.Proofs.Json.Order
import Marshal.Proofs.Json.Recursion
import Marshal.Proofs.Markup.Order
import Marshal.Proofs.Markup.Fronts
import Marshal.Proofs.Markup.Roots
import Marshal.Proofs.Document.Instantiation
import Marshal.Proofs.Document.Order
import Marshal.Proofs.Document.Surroundings
import Marshal.Proofs.Markup.Rendering
import Marshal.Proofs.Wire.Verdict
import Marshal.Proofs.Document.Verdict
import Marshal.Proofs.Wire.Unbound
import Marshal.Proofs.Json.Unbound
import Marshal.Proofs.Markup.Unbound
import Marshal.Proofs.Document.Tolerance
import Marshal.Proofs.Json.Discriminators
import Marshal.Proofs.Document.Discriminators
import Marshal.Proofs.Wire.Tokens
import Marshal.Proofs.Plan.Extension
import Marshal.Proofs.Document.Nesting
import Marshal.Proofs.Schema.Meaning
import Marshal.Proofs.Schema.Load
import Marshal.Proofs.Bindings.Identifiers
import Marshal.Proofs.Bindings.Interference
import Marshal.Proofs.Markup.Names
