import LiveDocument.Text.Hex
import LiveDocument.Text.Printable

/-!
# Quoted literals

A text between double quotes in which every character can be told from every other: what is not
printable is written as an escape.
-/

namespace LiveDocument.Text

def escapeLiteral (c : Char) : List Char :=
  match c with
  | '\x00' => ['\\', '0']
  | '\t' => ['\\', 't']
  | '\r' => ['\\', 'r']
  | '\n' => ['\\', 'n']
  | '"' => ['\\', '"']
  | '\\' => ['\\', '\\']
  | c => if isPrintable c then [c] else '\\' :: 'u' :: '\x7b' :: (hex c.toNat ++ ['\x7d'])

def literal (s : String) : List Char :=
  '"' :: (s.toList.flatMap escapeLiteral ++ ['"'])

end LiveDocument.Text
