import LiveDocument.CommandLine.Run

/-!
# The program

Reads the files and the variables that a run asks for, runs the command, prints what it prints
and writes what it writes.
-/

namespace LiveDocument.CommandLine

/-- The content of a file, if it can be read. -/
def contentOf? (path : String) : IO (Option String) := do
  try return some (← IO.FS.readFile path) catch _ => return none

/-- The contents of the files with these names. -/
def contentsOf (paths : List String) : IO (List (String × Option String)) :=
  paths.mapM fun path => return (path, ← contentOf? path)

/-- The variables of these names that are set. -/
def environmentOf (names : List String) : IO Environment :=
  names.filterMapM fun name => return (← IO.getEnv name).map fun value => (name, value)

/-- The files that a run reads: that of the command, and that of the settings. -/
def filesOf (settings : Environment) (args : List String) : List String :=
  match Request.ofArguments args with
  | .run i => i.command.file :: settings.map Prod.snd
  | _ => []

/-- Writes a file, and says what the result is then. -/
def writeOut (result : Result) : IO Result := do
  match result.written with
  | some (path, text) =>
    try
      IO.FS.writeFile path text
      return result
    catch _ => return failed "rfx error" (.inaccessible path)
  | none => return result

end LiveDocument.CommandLine

open LiveDocument.CommandLine in
/-- Runs the program. -/
def main (args : List String) : IO UInt32 := do
  let contents ← contentsOf (filesOf (← environmentOf [settingsVariable]) args)
  let files : Files := fun path => (contents.find? fun c => c.1 == path).bind Prod.snd
  let result ← writeOut (run (← environmentOf (variableNames files args)) files args)
  (← IO.getStdout).putStr result.output
  (← IO.getStderr).putStr result.diagnostics
  return result.exit.toUInt32
