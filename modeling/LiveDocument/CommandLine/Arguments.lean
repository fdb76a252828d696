import LiveDocument.Format
import LiveDocument.Text.Delimited

/-!
# Arguments

What a command line asks for. Options that hold for every command may stand before or after the
command's name, once in each of the two places, and then the later one counts. An argument that
begins with a dash is an option, unless it is a dash alone or follows the argument `--`.

Help is left out: `-h`, `--help` and the command `help` are unknown here, so arguments that ask for
it are rejected, with exit code 2, and are not answered by a text about the commands, with exit
code 0. Either way no command runs and no file changes.
-/

namespace LiveDocument.CommandLine

/-- The commands, with the file they work on. -/
inductive Command where
  | get (file : String) (address : Option String)
  | set (file address value : String) (inPlace : Bool)
  | delete (file address : String) (inPlace : Bool)
  | keys (file : String) (address : Option String)
  deriving DecidableEq

/-- A command and the options that hold for all commands. -/
structure Invocation where
  delimiter : Option String
  format : Format
  raw : Bool
  command : Command
  deriving DecidableEq

/-- What the arguments ask for. -/
inductive Request where
  | version
  | rejected
  | run (i : Invocation)
  deriving DecidableEq

/-- The options of one place. -/
structure Options where
  delimiter : Option String := none
  format : Option Format := none
  raw : Bool := false
  inPlace : Bool := false

/-- The names of commands. -/
inductive Verb where
  | get
  | set
  | delete
  | keys
  deriving DecidableEq

/-- The command of a name or of its first letter. -/
def Verb.ofName? (name : String) : Option Verb :=
  if name = "get" ∨ name = "g" then some .get
  else if name = "set" ∨ name = "s" then some .set
  else if name = "delete" ∨ name = "d" then some .delete
  else if name = "keys" ∨ name = "k" then some .keys
  else none

/-- The commands that can change their file. -/
def Verb.edits : Verb → Bool
  | set | delete => true
  | get | keys => false

def formatOfName? (name : String) : Option Format :=
  if name = "json" then some .json
  else if name = "pretty" then some .pretty
  else if name = "yaml" then some .yaml
  else none

namespace Options

/-- The delimiter may be given once. -/
def withDelimiter (o : Options) (value : String) : Option Options :=
  if o.delimiter.isSome then none else some { o with delimiter := some value }

/-- The format may be given once, and has to be one. -/
def withFormat (o : Options) (value : String) : Option Options :=
  if o.format.isSome then none
  else (formatOfName? value).map fun format => { o with format := some format }

/-- The switch for stored values may be given once. -/
def withRaw (o : Options) : Option Options :=
  if o.raw then none else some { o with raw := true }

/-- The switch for writing back may be given once. -/
def withInPlace (o : Options) : Option Options :=
  if o.inPlace then none else some { o with inPlace := true }

end Options

/-- An option with a value. -/
inductive Setting where
  | delimiter
  | format

def Setting.apply (s : Setting) (o : Options) (value : String) : Option Options :=
  match s with
  | delimiter => o.withDelimiter value
  | format => o.withFormat value

/-- What an argument that is an option comes to. -/
inductive Effect where
  | rejected
  | version
  | done (o : Options)
  | wants (s : Setting) (o : Options)

/-- The effect of options, if there is one. -/
def Effect.ofOption : Option Options → Effect
  | some o => done o
  | none => rejected

/-- The place of an option: before the command's name, or after it. -/
inductive Place where
  | before
  | after (verb : Verb)

/-- The command can change its file. -/
def Place.edits : Place → Bool
  | before => false
  | after verb => verb.edits

/-- The options of a group of letters. A letter whose option has a value takes the rest of the
group for it, without an equals sign at its start. -/
def readLetters (place : Place) (o : Options) : List Char → Effect
  | [] => .done o
  | 'd' :: rest => withValue .delimiter rest
  | 'f' :: rest => withValue .format rest
  | 'i' :: rest =>
    if place.edits then
      match o.withInPlace with
      | some o => readLetters place o rest
      | none => .rejected
    else .rejected
  | 'V' :: _ =>
    match place with
    | .before => .version
    | .after _ => .rejected
  | _ => .rejected
where
  /-- An option with the value that is attached to it, if there is one. -/
  withValue (s : Setting) : List Char → Effect
    | [] => .wants s o
    | '=' :: value => .ofOption (s.apply o (String.ofList value))
    | value => .ofOption (s.apply o (String.ofList value))

/-- The option of a word, with the value after its equals sign, if there is one. -/
def readWord (place : Place) (o : Options) (word : List Char) : Effect :=
  let name := String.ofList (word.takeWhile (· != '='))
  let value :=
    match word.dropWhile (· != '=') with
    | _ :: value => some (String.ofList value)
    | [] => none
  if name = "delimiter" then withValue .delimiter value
  else if name = "format" then withValue .format value
  else
    match value with
    | some _ => .rejected
    | none =>
      if name = "raw" then .ofOption o.withRaw
      else if name = "in-place" && place.edits then .ofOption o.withInPlace
      else
        match place with
        | .before => if name = "version" then .version else .rejected
        | .after _ => .rejected
where
  /-- An option with its value, or one that wants the next argument. -/
  withValue (s : Setting) : Option String → Effect
    | some value => .ofOption (s.apply o value)
    | none => .wants s o

/-- The effect of an argument, if it is an option. -/
def readOption? (place : Place) (o : Options) (arg : String) : Option Effect :=
  match arg.toList with
  | '-' :: '-' :: word => some (readWord place o word)
  | '-' :: c :: letters => some (readLetters place o (c :: letters))
  | _ => none

/-- An argument that can be the value of the option before it. -/
def isValue (arg : String) : Bool :=
  match arg.toList with
  | '-' :: _ :: _ => false
  | _ => true

/-- Everything that follows the command's name: the options and the other arguments. -/
def readAfter (verb : Verb) : Options → (wanting : Option Setting) → List String →
    Option (Options × List String)
  | o, none, [] => some (o, [])
  | _, some _, [] => none
  | o, some s, arg :: rest =>
    if isValue arg then (s.apply o arg).bind fun o => readAfter verb o none rest else none
  | o, none, arg :: rest =>
    if arg = "--" then some (o, rest)
    else
      match readOption? (.after verb) o arg with
      | some .rejected | some .version => none
      | some (.done o) => readAfter verb o none rest
      | some (.wants s o) => readAfter verb o (some s) rest
      | none => (readAfter verb o none rest).map fun (o, others) => (o, arg :: others)

/-- The command of a name and its arguments; a file has a name. -/
def commandOf? (verb : Verb) (inPlace : Bool) (args : List String) : Option Command :=
  match args with
  | [] => none
  | file :: others =>
    if file.isEmpty then none
    else
      match verb, others with
      | .get, [] => some (.get file none)
      | .get, [address] => some (.get file (some address))
      | .set, [address, value] => some (.set file address value inPlace)
      | .delete, [address] => some (.delete file address inPlace)
      | .keys, [] => some (.keys file none)
      | .keys, [address] => some (.keys file (some address))
      | _, _ => none

/-- What options before and after a command's name and its arguments ask for. -/
def request (verb : Verb) (before after : Options) (args : List String) : Request :=
  match commandOf? verb after.inPlace args with
  | some command =>
    .run
      ⟨after.delimiter.or before.delimiter, (after.format.or before.format).getD .pretty,
        before.raw || after.raw, command⟩
  | none => .rejected

/-- Everything from the start of the arguments. -/
def readBefore : Options → (wanting : Option Setting) → List String → Request
  | _, _, [] => .rejected
  | o, some s, arg :: rest =>
    if isValue arg then
      match s.apply o arg with
      | some o => readBefore o none rest
      | none => .rejected
    else .rejected
  | o, none, arg :: rest =>
    match readOption? .before o arg with
    | some .rejected => .rejected
    | some .version => .version
    | some (.done o) => readBefore o none rest
    | some (.wants s o) => readBefore o (some s) rest
    | none =>
      match Verb.ofName? arg with
      | some verb =>
        match readAfter verb {} none rest with
        | some (after, args) => request verb o after args
        | none => .rejected
      | none => .rejected

def Request.ofArguments (args : List String) : Request :=
  readBefore {} none args

end LiveDocument.CommandLine
