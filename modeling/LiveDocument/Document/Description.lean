import LiveDocument.Handle.Basic
import LiveDocument.Json.Printer
import LiveDocument.Text.Literal

/-!
# Descriptions

Texts that show a document or a handle to a programmer: every part with the name of what it is.
-/

namespace LiveDocument

mutual

def Value.description : Value → List Char
  | .null => "Null".toList
  | .boolean b => "Bool(".toList ++ Json.scalarText (.boolean b) ++ [')']
  | .integer i => "Number(".toList ++ Json.scalarText (.integer i) ++ [')']
  | .float x => "Number(".toList ++ Json.scalarText (.float x) ++ [')']
  | .string s => "String(".toList ++ Text.literal s ++ [')']
  | .sequence items => "Array [".toList ++ Value.descriptionAll items ++ [']']
  | .mapping entries => "Object \x7b".toList ++ Value.descriptionEntries entries ++ ['\x7d']

/-- The descriptions of items with commas between them. -/
def Value.descriptionAll : List Value → List Char
  | [] => []
  | [v] => Value.description v
  | v :: rest => Value.description v ++ ',' :: ' ' :: Value.descriptionAll rest

/-- The descriptions of entries with commas between them. -/
def Value.descriptionEntries : List (String × Value) → List Char
  | [] => []
  | [(k, v)] => Text.literal k ++ ':' :: ' ' :: Value.description v
  | (k, v) :: rest =>
    Text.literal k ++ ':' :: ' ' ::
      (Value.description v ++ ',' :: ' ' :: Value.descriptionEntries rest)

end

def describePart (name : String) (text : List Char) : List Char :=
  name.toList ++ ':' :: ' ' :: text

/-- The description of a thing with parts. -/
def describeParts (name : String) (parts : List (List Char)) : List Char :=
  name.toList ++ ' ' :: '\x7b' :: ' ' :: (Text.join [',', ' '] parts ++ [' ', '\x7d'])

def describeSwitch (b : Bool) : List Char :=
  Json.scalarText (.boolean b)

def Settings.description (s : Settings) : List Char :=
  describeParts "Settings"
    [describePart "delimiter" (Text.literal s.delimiter),
      describePart "use_cache" (describeSwitch s.useCache),
      describePart "cascade_invalidation" (describeSwitch s.cascade)]

def Document.description (d : Document) : String :=
  String.ofList
    (describeParts "Document"
      [describePart "value" d.value.description,
        describePart "settings" d.settings.description])

def Handle.description (h : Handle) (d : Document) : String :=
  String.ofList
    (describeParts "Handle"
      [describePart "address" (Text.literal (h.address d.delimiter)),
        describePart "valid" (describeSwitch (d.isValid h))])

end LiveDocument
