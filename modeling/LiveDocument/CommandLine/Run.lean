import LiveDocument.CommandLine.Arguments
import LiveDocument.Document.Source
import LiveDocument.Settings.File
import LiveDocument.View

/-!
# Commands

A command opens its file, looks something up or edits it, and prints the result or writes it
back. Edited files keep their references as they are. A failure prints one line and changes no
file.
-/

namespace LiveDocument.CommandLine

/-- The files that a program can read, by their names. -/
abbrev Files := String → Option String

/-- What running a program comes to: its exit code, what it prints on the two streams, and the
file that it writes. -/
structure Result where
  exit : Nat
  output : String := ""
  diagnostics : String := ""
  written : Option (String × String) := none
  deriving DecidableEq

/-- What a command prints and which file it writes. -/
structure Printed where
  text : String
  written : Option (String × String) := none

/-- The name of the variable that names the settings file. -/
def settingsVariable : String := "RFX_CONFIG"

/-- The settings of the file that the environment names, or the usual ones. -/
def baseSettings (env : Environment) (files : Files) : Except Failure Settings :=
  match env.get? settingsVariable with
  | some path =>
    match files path with
    | some text => Settings.ofText text
    | none => .error (.inaccessible path)
  | none => .ok {}

/-- The settings: the file's, overridden by the environment, overridden by the arguments. -/
def settingsFor (env : Environment) (files : Files) (delimiter : Option String) :
    Except Failure Settings := do
  let base ← baseSettings env files
  let s ← base.override env
  match delimiter with
  | some text => Settings.validate { s with delimiter := text }
  | none => .ok s

/-- The text of a value; YAML loses the blanks at its end. -/
def formatted (format : Format) (v : Value) : String :=
  match format with
  | .yaml => String.ofList (Text.trimEnd (Yaml.lines v))
  | format => format.render v

/-- The stored or the expanded value of a handle. -/
def readHandle (env : Environment) (raw : Bool) (h : Handle) : Live Value :=
  if raw then h.rawValue else h.parsedValue env

/-- The stored or the expanded values of handles. -/
def readHandles (env : Environment) (raw : Bool) : List Handle → Live (List Value)
  | [] => return []
  | h :: hs => do
    let v ← readHandle env raw h
    return v :: (← readHandles env raw hs)

/-- The value at an address: for a slice always a sequence. -/
def readAddress (env : Environment) (raw : Bool) (query : Query) : Live Value := do
  let d ← get
  let a := d.addressOf query
  let handles ← Live.ofFunction fun d => d.query query
  if a.endsWithSlice then return .sequence (← readHandles env raw handles)
  else
    match handles with
    | h :: _ => readHandle env raw h
    | [] => throw (.missingMember (a.canonical []))

/-- The value that is printed by `get`. -/
def readValue (env : Environment) (raw : Bool) : Option String → Live Value
  | some address => readAddress env raw (.text address)
  | none => do readHandle env raw (← Live.ofFunction Document.root)

/-- The keys that are printed by `keys`: those of a mapping or the places of a sequence. -/
def readKeys (address : Option String) : Live (List String) := do
  let h ←
    match address with
    | some address => Document.member (.text address)
    | none => Live.ofFunction Document.root
  let view ← View.ofHandle h
  if view.variant = .sequence then
    return (List.range (← view.length)).map fun i => String.ofList (Text.decimal i)
  else view.keys

/-- JSON if it is that, otherwise the text itself. -/
def valueOfArgument (text : String) : Value :=
  (Json.read? text).getD (.string text)

/-- The text of a file that is written back. -/
def fileText (file : String) (v : Value) : String :=
  if isJsonFile file then Json.renderIndented v ++ "\n" else Yaml.render v

/-- Writes an edited document back or prints it. -/
def finish (env : Environment) (i : Invocation) (file : String) (inPlace : Bool) :
    Live Printed := do
  if inPlace then
    let d ← get
    return ⟨"", some (file, fileText file d.value)⟩
  else
    let v ← if i.raw then Document.value <$> get else Document.parsedValue env
    return ⟨formatted i.format v, none⟩

/-- The file that a command works on. -/
def Command.file : Command → String
  | get file _ => file
  | set file _ _ _ => file
  | delete file _ _ => file
  | keys file _ => file

/-- Carries a command out on the document of its file. -/
def perform (env : Environment) (i : Invocation) : Live Printed :=
  match i.command with
  | .get _ address => do
    return ⟨formatted i.format (← readValue env i.raw address), none⟩
  | .set file address value inPlace => do
    Document.set (.text address) (valueOfArgument value)
    finish env i file inPlace
  | .delete file address inPlace => do
    let _ ← Document.delete (.text address)
    finish env i file inPlace
  | .keys _ address => do
    return ⟨"\n".intercalate (← readKeys address), none⟩

/-- Opens the file of a command and carries the command out. -/
def execute (env : Environment) (files : Files) (s : Settings) (i : Invocation) :
    Except Failure Printed := do
  let v ← Value.ofFile i.command.file (files i.command.file)
  ((perform env i).runOn (Document.ofValue v s)).1

def failed (label : String) (f : Failure) : Result :=
  { exit := 1, diagnostics := label ++ ": " ++ f.message ++ "\n" }

/-- The result of a success: a text is printed with a line break after it. -/
def succeeded (p : Printed) : Result :=
  { exit := 0, output := if p.text.isEmpty then "" else p.text ++ "\n", written := p.written }

def versionText : String := "reflective-cli 0.1.0\n"

def run (env : Environment) (files : Files) (args : List String) : Result :=
  match Request.ofArguments args with
  | .version => { exit := 0, output := versionText }
  | .rejected => { exit := 2 }
  | .run i =>
    match settingsFor env files i.delimiter with
    | .error f => failed "rfx" f
    | .ok s =>
      match execute env files s i with
      | .error f => failed "rfx error" f
      | .ok p => succeeded p

def settingVariables : List String :=
  [settingsVariable, Settings.delimiterVariable, Settings.useCacheVariable,
    Settings.cascadeVariable]

/-- The variables that the references of a value name. -/
def valueVariables (v : Value) : List String :=
  v.strings.flatMap Reference.variableNames

/-- The variables that a run asks for. -/
def variableNames (files : Files) (args : List String) : List String :=
  match Request.ofArguments args with
  | .run i =>
    let file := i.command.file
    let stored :=
      match Value.ofFile file (files file) with
      | .ok v => valueVariables v
      | .error _ => []
    let added :=
      match i.command with
      | .set _ _ value _ => valueVariables (valueOfArgument value)
      | _ => []
    settingVariables ++ stored ++ added
  | _ => []

end LiveDocument.CommandLine
