import LiveDocument.Number.Layout
import LiveDocument.Text.Hex
import LiveDocument.Value.Basic

/-!
# Writing JSON text

The compact form has no blanks; the indented form puts every item and every entry on a line of
its own, four blanks further in than its container, and leaves empty containers closed up.
Strings escape the quote, the backslash and the characters below the blank, and nothing else.
-/

namespace LiveDocument.Json

/-- Floats in JSON: a positive exponent has its sign. -/
def floatLayout : Binary64.Layout where
  plusSign := true

def escape (c : Char) : List Char :=
  match c with
  | '"' => ['\\', '"']
  | '\\' => ['\\', '\\']
  | '\x08' => ['\\', 'b']
  | '\x0c' => ['\\', 'f']
  | '\n' => ['\\', 'n']
  | '\r' => ['\\', 'r']
  | '\t' => ['\\', 't']
  | c =>
    if c.toNat < 32 then
      ['\\', 'u', '0', '0', Text.hexDigit (c.toNat / 16), Text.hexDigit (c.toNat % 16)]
    else [c]

def quote (s : String) : List Char :=
  '"' :: (s.toList.flatMap escape ++ ['"'])

/-- The text of a scalar; containers have none here. -/
def scalarText : Value → List Char
  | .null => ['n', 'u', 'l', 'l']
  | .boolean true => ['t', 'r', 'u', 'e']
  | .boolean false => ['f', 'a', 'l', 's', 'e']
  | .integer i => Text.decimalInt i.val
  | .float x => floatLayout.render x
  | .string s => quote s
  | .sequence _ | .mapping _ => []

mutual

def compact : Value → List Char
  | .sequence items => '[' :: (compactItems items ++ [']'])
  | .mapping entries => '\x7b' :: (compactEntries entries ++ ['\x7d'])
  | v => scalarText v

/-- The items of a sequence with commas between them. -/
def compactItems : List Value → List Char
  | [] => []
  | [v] => compact v
  | v :: rest => compact v ++ ',' :: compactItems rest

/-- The entries of a mapping with commas between them. -/
def compactEntries : List (String × Value) → List Char
  | [] => []
  | [(k, v)] => quote k ++ ':' :: compact v
  | (k, v) :: rest => quote k ++ ':' :: (compact v ++ ',' :: compactEntries rest)

end

/-- The start of a line at a level of nesting. -/
def lineStart (level : Nat) : List Char :=
  '\n' :: List.replicate (4 * level) ' '

mutual

/-- The indented text of a value inside `level` containers. -/
def indented (level : Nat) : Value → List Char
  | .sequence [] => ['[', ']']
  | .sequence items => '[' :: (indentedItems (level + 1) items ++ lineStart level ++ [']'])
  | .mapping [] => ['\x7b', '\x7d']
  | .mapping entries =>
    '\x7b' :: (indentedEntries (level + 1) entries ++ lineStart level ++ ['\x7d'])
  | v => scalarText v

/-- The items of a sequence, each on a line of its own. -/
def indentedItems (level : Nat) : List Value → List Char
  | [] => []
  | [v] => lineStart level ++ indented level v
  | v :: rest => lineStart level ++ indented level v ++ ',' :: indentedItems level rest

/-- The entries of a mapping, each on a line of its own. -/
def indentedEntries (level : Nat) : List (String × Value) → List Char
  | [] => []
  | [(k, v)] => lineStart level ++ quote k ++ ':' :: ' ' :: indented level v
  | (k, v) :: rest =>
    lineStart level ++ quote k ++ ':' :: ' ' ::
      (indented level v ++ ',' :: indentedEntries level rest)

end

def render (v : Value) : String :=
  String.ofList (compact v)

def renderIndented (v : Value) : String :=
  String.ofList (indented 0 v)

end LiveDocument.Json
