import Marshal.Bindings.Build
import Marshal.Bindings.Print
import Marshal.Command.Disk
import Marshal.Command.LogFilter
import Marshal.Json.Print
import Marshal.Plan.Build
import Marshal.Plan.Render
import Marshal.Schema.Load
import Marshal.Schema.Read
import Marshal.Settings
import Marshal.Text.Symbol

/-!
# Running the generator

A run reads a schema, plans every format it is told to, and writes a file of plans for each format and
one of type declarations. Nothing is written before everything has been planned. The steps fail in a
fixed order: settings, log filter, arguments, schema file, schema, plans, output.
-/

namespace Marshal.Command

/-- Why a run ends early. -/
inductive Failure where
  | settings (e : SettingsError)
  | logFilter (filter : String)
  | usage
  | reading (path : String) (fault : DiskFault)
  | malformedSchema
  | schema (e : Schema.LoadError)
  | planning (e : PlanError)
  | creating (path : String) (fault : DiskFault)
  | writing (path : String) (fault : DiskFault)
deriving DecidableEq, Repr

namespace Failure

/-- What could not be done. -/
def message : Failure → String
  | .settings _ => "failed to load configuration"
  | .logFilter s => "invalid log level filter: " ++ s
  | .usage => "usage: wireplan-gen <schema.json> [output-dir]"
  | .reading p _ => "failed to read schema file: " ++ p
  | .malformedSchema => "failed to parse schema document"
  | .schema e => e.message
  | .planning _ => "failed to plan wire formats"
  | .creating p _ => "failed to create directory: " ++ p
  | .writing p _ => "failed to write " ++ p

/-- Why it could not be done, where that is known. -/
def cause? : Failure → Option String
  | .settings e => some e.message
  | .logFilter _ => none
  | .usage => none
  | .reading _ f => some f.message
  | .malformedSchema => none
  | .schema e => e.cause?.map CatalogueError.message
  | .planning e => some e.message
  | .creating _ f => some f.message
  | .writing _ f => some f.message

/-- A text whose every line is indented. -/
def indented (s : String) : String :=
  String.ofList (("    " ++ s).toList.flatMap fun c => if c = '\n' then "\n    ".toList else [c])

/-- The report of a failure. -/
def report (f : Failure) : String :=
  match f.cause? with
  | some cause => f.message ++ "\n\nCaused by:\n" ++ indented cause
  | none => f.message

end Failure

/-- A result with its error turned into a failure. -/
def failing {ε α : Type} (f : ε → Failure) : Except ε α → Except Failure α
  | .ok a => .ok a
  | .error e => .error (f e)

/-- The name of the file of plans for a format. -/
def planFileName (f : Format) : String := "plans." ++ f.name ++ ".json"

/-- The files, with their names, that a schema gives. -/
def outputs (settings : Settings) (schema : String) : Except Failure (List (String × String)) := do
  let document ← match Schema.Document.read? schema with
    | some d => pure d
    | none => throw .malformedSchema
  let catalogue ← failing .schema document.load
  let sets ← failing .planning (catalogue.planFormats settings.formats)
  let plans := sets.map fun s => (planFileName s.format, s.toJson.pretty)
  let types := ("types.rs", Bindings.fileText (Bindings.declarations catalogue))
  return plans ++ if settings.emitTypes then [types] else []

/-- What a run is told before it looks at any file. -/
structure Request where
  settings : Settings
  schema : String
  outputDir : String
deriving DecidableEq, Repr

/-- The request of an environment and arguments. A log filter of the environment's own stands in for
that of the settings, which is then not looked at. -/
def Request.of (env : String → Option String) (args : List String) : Except Failure Request := do
  let settings ← failing .settings (Settings.ofEnvironment env)
  if (env "RUST_LOG").isNone && !isLogFilter settings.logLevel then
    throw (.logFilter settings.logLevel)
  match args with
  | [] => throw .usage
  | [schema] => return ⟨settings, schema, settings.outputDir⟩
  | schema :: outputDir :: _ => return ⟨settings, schema, outputDir⟩

section

variable {m : Type → Type} [Monad m] [Disk m]

/-- The text of the schema file. -/
def readSchema (path : String) : m (Except Failure String) := do
  match ← Disk.read path with
  | .error fault => return .error (.reading path fault)
  | .ok bytes =>
    match Text.ofBytes? bytes with
    | some text => return .ok text
    | none => return .error (.reading path .notText)

/-- Writes files into a directory, one after the other. -/
def writeAll (dir : String) : List (String × String) → m (Except Failure Unit)
  | [] => return .ok ()
  | (name, text) :: rest => do
    match ← Disk.createAll (directoryOf dir) with
    | .error fault => return .error (.creating (directoryOf dir) fault)
    | .ok () =>
      match ← Disk.write (filePath dir name) text with
      | .error fault => return .error (.writing (filePath dir name) fault)
      | .ok () => writeAll dir rest

/-- A run of the generator. -/
def run (env : String → Option String) (args : List String) : m (Except Failure Unit) := do
  match Request.of env args with
  | .error f => return .error f
  | .ok request =>
    match ← readSchema request.schema with
    | .error f => return .error f
    | .ok schema =>
      match outputs request.settings schema with
      | .error f => return .error f
      | .ok files => writeAll request.outputDir files

end

end Marshal.Command
