import Marshal.Command.Run

/-!
# The generator as a program
-/

namespace Marshal.Command

/-- The fault behind an error of the operating system. -/
def DiskFault.ofError : IO.Error → DiskFault
  | .noFileOrDirectory .. => .notFound
  | .alreadyExists .. => .exists
  | .inappropriateType _ code _ => if code = 20 then .notDirectory else .isDirectory
  | e => .other e.toString

/-- A file operation with its error caught. -/
def caught {α : Type} (act : IO α) : IO (Except DiskFault α) := do
  try
    return .ok (← act)
  catch e => return .error (.ofError e)

instance : Disk IO where
  read path := caught do return (← IO.FS.readBinFile path).toList
  createAll path := if path.isEmpty then return .ok () else caught (IO.FS.createDirAll path)
  write path text := caught (IO.FS.writeFile path text)

/-- The variables that a run looks at. -/
def variableNames : List String :=
  ["WIREPLAN_LOG_LEVEL", "LOG_LEVEL", "WIREPLAN_PARALLEL", "WIREPLAN_FORMATS",
    "WIREPLAN_EMIT_TYPES", "WIREPLAN_OUTPUT_DIR", "RUST_LOG"]

end Marshal.Command

/-- Runs the generator and reports a failure. -/
def main (args : List String) : IO UInt32 := do
  let set ← Marshal.Command.variableNames.filterMapM fun name => do
    return (← IO.getEnv name).map fun value => (name, value)
  match ← Marshal.Command.run (Marshal.Table.find? set) args with
  | .ok () => return 0
  | .error f =>
    IO.eprintln ("Error: " ++ f.report)
    return 1
