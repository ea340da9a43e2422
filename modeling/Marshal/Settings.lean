import Marshal.Format
import Marshal.Json.Read
import Marshal.Json.Record

/-!
# Settings

What a run of the generator is told: by environment variables, where what is not set keeps its
standard value, or by a JSON document, where nothing may be missing.
-/

namespace Marshal

/-- The settings of a run. -/
structure Settings where
  logLevel : String := "info"
  parallel : Bool := true
  formats : List Format := [.json, .xml]
  emitTypes : Bool := true
  outputDir : String := "generated"
deriving DecidableEq, Repr

/-- Why an environment gives no settings. -/
inductive SettingsError where
  | unknownFormat (e : Format.Unknown)
  | noFormats
deriving DecidableEq, Repr

/-- The wording of a failure to read settings. -/
def SettingsError.message : SettingsError → String
  | .unknownFormat e => e.message
  | .noFormats => "configuration error: WIREPLAN_FORMATS must name at least one format"

namespace Settings

/-! ## Environments -/

/-- Reads a switch, which is on for `1` and for `true` in any case. -/
def readSwitch (s : String) : Bool := s == "1" || Text.sameIgnoringCase s "true"

/-- Adds the formats that names stand for to a list, without those that are there already. Blank
names are passed over. -/
def readNames (formats : List Format) : List String → Except Format.Unknown (List Format)
  | [] => .ok formats
  | name :: names =>
    if (Text.trim name).isEmpty then readNames formats names
    else
      match Format.read name with
      | .error e => .error e
      | .ok f => readNames (if f ∈ formats then formats else formats ++ [f]) names

/-- Reads a list of formats, separated by commas. -/
def readFormats (s : String) : Except SettingsError (List Format) :=
  match readNames [] ((s.toList.splitOn ',').map String.ofList) with
  | .error e => .error (.unknownFormat e)
  | .ok [] => .error .noFormats
  | .ok fs => .ok fs

/-- The settings of an environment. -/
def ofEnvironment (env : String → Option String) : Except SettingsError Settings := do
  let standard : Settings := {}
  let formats ← match env "WIREPLAN_FORMATS" with
    | some s => readFormats s
    | none => pure standard.formats
  return {
    logLevel := (env "WIREPLAN_LOG_LEVEL").getD ((env "LOG_LEVEL").getD standard.logLevel)
    parallel := ((env "WIREPLAN_PARALLEL").map readSwitch).getD standard.parallel
    formats
    emitTypes := ((env "WIREPLAN_EMIT_TYPES").map readSwitch).getD standard.emitTypes
    outputDir := (env "WIREPLAN_OUTPUT_DIR").getD standard.outputDir }

/-! ## Documents -/

/-- The keys of a settings document. -/
def keys : List String := ["logLevel", "parallel", "formats", "emitTypes", "outputDir"]

/-- A format: its name, or an object that has a null under its name. -/
def format? : Json → Option Format
  | .text name => Format.ofName? name
  | .object [(name, .null)] => Format.ofName? name
  | _ => none

/-- Reads a settings document. -/
def read? (text : String) : Option Settings := do
  let j ← Json.record? keys text.toList
  let parts ← j.parts? keys 5
  return {
    logLevel := ← (← Table.find? parts "logLevel").toText?
    parallel := ← (← Table.find? parts "parallel").toBool?
    formats := ← (← (← Table.find? parts "formats").toItems?).mapM format?
    emitTypes := ← (← Table.find? parts "emitTypes").toBool?
    outputDir := ← (← Table.find? parts "outputDir").toText? }

/-- The document of some settings. -/
def toJson (s : Settings) : Json :=
  .object [("logLevel", .text s.logLevel), ("parallel", .bool s.parallel),
    ("formats", .array (s.formats.map fun f => .text f.name)), ("emitTypes", .bool s.emitTypes),
    ("outputDir", .text s.outputDir)]

end Settings

end Marshal
