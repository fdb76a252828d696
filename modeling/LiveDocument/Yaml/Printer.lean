import LiveDocument.Number.Layout
import LiveDocument.Yaml.Written

/-!
# Writing YAML text

Collections are written in block form, empty ones as brackets or braces. A sequence below a key
starts on the next line at the key's own column; everything else is indented by two. A key of
more than one line or of more than 128 bytes follows a question mark, and its value a colon on
a line of its own. Every text ends with a line break.
-/

namespace LiveDocument.Yaml

/-- Floats in YAML: a positive exponent has no sign. -/
def floatLayout : Binary64.Layout where
  plusSign := false

/-- A key that can stand in front of its colon on one line. -/
def isSimpleKey (key : String) : Bool :=
  !key.toList.any isBreak && key.utf8ByteSize ≤ 128

/-- A text with a line break at its end. -/
def endLine (cs : List Char) : List Char :=
  if cs.getLast?.any isBreak then cs else cs ++ ['\n']

/-- The lines of a value without parts; further lines are indented. -/
def leaf (indent : Nat) : Value → List Char
  | .null => endLine "null".toList
  | .boolean true => endLine "true".toList
  | .boolean false => endLine "false".toList
  | .integer i => endLine (Text.decimalInt i.val)
  | .float x => endLine (floatLayout.render x)
  | .string s => endLine (writeString indent s.toList)
  | .sequence _ => endLine ['[', ']']
  | .mapping _ => endLine ['\x7b', '\x7d']

mutual

/-- The lines of a value after an indicator; its parts start at this column. -/
def writeInline (column : Nat) : Value → List Char
  | .sequence [] => leaf column (.sequence [])
  | .sequence items => writeItems column [] items
  | .mapping [] => leaf column (.mapping [])
  | .mapping entries => writeEntries column [] entries
  | v => leaf column v

/-- The lines of a value after a key at this column and its colon. -/
def writeBelow (column : Nat) : Value → List Char
  | .sequence [] => ' ' :: leaf column (.sequence [])
  | .sequence items => '\n' :: writeItems column (blanks column) items
  | .mapping [] => ' ' :: leaf column (.mapping [])
  | .mapping entries => '\n' :: writeEntries (column + 2) (blanks (column + 2)) entries
  | v => ' ' :: leaf (column + 2) v

/-- The lines of the items of a sequence, the first after `lead` and the others indented. -/
def writeItems (column : Nat) (lead : List Char) : List Value → List Char
  | [] => []
  | v :: rest =>
    lead ++ '-' :: ' ' :: (writeInline (column + 2) v ++ writeItems column (blanks column) rest)

/-- The lines of the entries of a mapping, the first after `lead` and the others indented. -/
def writeEntries (column : Nat) (lead : List Char) : List (String × Value) → List Char
  | [] => []
  | (key, v) :: rest =>
    let name := writeString (column + 2) key.toList
    let entry :=
      if isSimpleKey key then name ++ ':' :: writeBelow column v
      else
        '?' :: ' ' :: (endLine name ++ blanks column ++ ':' :: ' ' :: writeInline (column + 2) v)
    lead ++ entry ++ writeEntries column (blanks column) rest

end

def lines : Value → List Char
  | .sequence items => writeInline 0 (.sequence items)
  | .mapping entries => writeInline 0 (.mapping entries)
  | v => leaf 2 v

def render (v : Value) : String :=
  String.ofList (lines v)

end LiveDocument.Yaml
