import LiveDocument.Document.Basic
import LiveDocument.Json.Reader
import LiveDocument.Yaml.Reader

/-!
# Opening documents

A document is opened from JSON or YAML text. A file whose name has the extension `json`, in any
case of its letters, holds JSON, and any other YAML.
-/

namespace LiveDocument

def fileName (path : String) : List Char :=
  ((Text.split ['/'] path.toList).getLast?).getD []

/-- What follows the last dot of a file name, unless the dot comes first. -/
def extension? (path : String) : Option (List Char) :=
  let parts := Text.split ['.'] (fileName path)
  match parts.reverse with
  | last :: rest => if rest.isEmpty || rest == [[]] then none else some last
  | [] => none

/-- The file holds JSON. -/
def isJsonFile (path : String) : Bool :=
  match extension? path with
  | some ext => ext.map Char.toLower == "json".toList
  | none => false

namespace Value

def ofJson (text : String) : Except Failure Value :=
  match Json.read? text with
  | some v => .ok v
  | none => .error .malformedJson

def ofYaml (text : String) : Except Failure Value :=
  match Yaml.read? text with
  | some v => .ok v
  | none => .error .malformedYaml

/-- The value of a file's content; a file that is not there cannot be opened. -/
def ofFile (path : String) (content : Option String) : Except Failure Value :=
  match content with
  | some text => if isJsonFile path then ofJson text else ofYaml text
  | none => .error (.inaccessible path)

end Value

end LiveDocument
