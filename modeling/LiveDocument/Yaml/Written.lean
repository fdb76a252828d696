import LiveDocument.Text.Hex
import LiveDocument.Yaml.Cursor
import LiveDocument.Yaml.Scalar

/-!
# Written strings

A string is written plainly where it would be read as the same string, else between single
quotes, else between double quotes; a string with a line feed is written as a literal block
where that is possible. Which styles are possible is decided by the characters at its ends, by
characters that cannot be seen, and by blanks beside line breaks.
-/

namespace LiveDocument.Yaml

/-- The characters that need no escape. -/
def isVisible (c : Char) : Bool :=
  let n := c.toNat
  n == 0x0A || (0x20 ≤ n && n ≤ 0x7E) || (0xA0 ≤ n && n ≤ 0xD7FF) ||
    (0xE000 ≤ n && n ≤ 0xFFFD && c != byteOrderMark) || 0x10000 ≤ n

/-- Two neighbours of a text satisfy these conditions. -/
def hasNeighbours (p q : Char → Bool) : List Char → Bool
  | a :: b :: cs => (p a && q b) || hasNeighbours p q (b :: cs)
  | _ => false

/-- A blank, a tab or a line break. -/
def isGap (c : Char) : Bool :=
  isSpace c || isBreak c

/-- The characters that mean something at the start of a scalar. -/
def isLeadingIndicator (c : Char) : Bool :=
  c == '#' || c == ',' || c == '[' || c == ']' || c == '\x7b' || c == '\x7d' || c == '&' ||
    c == '*' || c == '!' || c == '|' || c == '>' || c == '\'' || c == '"' || c == '%' ||
    c == '@' || c == '`'

/-- A text that starts with an indicator or a document marker. -/
def startsAmbiguously : List Char → Bool
  | '-' :: '-' :: '-' :: _ => true
  | '.' :: '.' :: '.' :: _ => true
  | [c] => isLeadingIndicator c || c == '?' || c == ':' || c == '-'
  | c :: d :: _ => isLeadingIndicator c || ((c == '?' || c == ':' || c == '-') && isGap d)
  | [] => false

/-- A text that holds the end of a key or the start of a comment. -/
def holdsIndicator (cs : List Char) : Bool :=
  cs.getLast? == some ':' || hasNeighbours (· == ':') isGap cs || hasNeighbours isGap (· == '#') cs

/-- A text that can be written without quotes outside brackets. -/
def allowsPlain (cs : List Char) : Bool :=
  !startsAmbiguously cs && !holdsIndicator cs && cs.all isVisible && !cs.any isBreak &&
    cs.head? != some ' ' && cs.getLast? != some ' '

/-- A text that can be written between single quotes. -/
def allowsSingleQuotes (cs : List Char) : Bool :=
  cs.all isVisible && !hasNeighbours isBreak (· == ' ') cs && !hasNeighbours (· == ' ') isBreak cs

/-- A text that can be written as a literal block. -/
def allowsLiteral (cs : List Char) : Bool :=
  cs.all isVisible && !hasNeighbours (· == ' ') isBreak cs && cs.getLast? != some ' '

/-- A plain text that would be read as something else than a string. -/
def readsOtherwise (cs : List Char) : Bool :=
  isPaddedNumeral cs ||
    match meaning cs with
    | .text => false
    | _ => true

def styleOf (cs : List Char) : Style :=
  if cs.contains '\n' then if allowsLiteral cs then .literal else .doubleQuoted
  else if allowsPlain cs && !readsOtherwise cs then .plain
  else if allowsSingleQuotes cs then .singleQuoted
  else .doubleQuoted

def blanks (n : Nat) : List Char :=
  List.replicate n ' '

/-- A text whose lines are indented; `fresh` says that a line starts here. -/
def indentLines (indent : Nat) : (fresh : Bool) → List Char → List Char
  | _, [] => []
  | fresh, c :: cs =>
    if isBreak c then c :: indentLines indent true cs
    else if fresh then blanks indent ++ c :: indentLines indent false cs
    else c :: indentLines indent false cs

/-- What follows the bar of a literal block: the indentation, if the text does not show it, and
what becomes of the line break at its end. -/
def literalHeader (cs : List Char) : List Char :=
  let indentation := if cs.head?.any fun c => c == ' ' || isBreak c then ['2'] else []
  let ending :=
    match cs.reverse with
    | [c] => if isBreak c then ['+'] else ['-']
    | c :: d :: _ => if !isBreak c then ['-'] else if isBreak d then ['+'] else []
    | [] => ['-']
  indentation ++ ending

/-- The upper-case hexadecimal digits of a number, in this width. -/
def paddedHex : (width : Nat) → Nat → List Char
  | 0, _ => []
  | width + 1, n => Text.hexDigitUpper (n / Nat.pow 16 width % 16) :: paddedHex width n

/-- The letter of an escape that has one. -/
def escapeLetter? (c : Char) : Option Char :=
  match c.toNat with
  | 0x00 => some '0'
  | 0x07 => some 'a'
  | 0x08 => some 'b'
  | 0x09 => some 't'
  | 0x0A => some 'n'
  | 0x0B => some 'v'
  | 0x0C => some 'f'
  | 0x0D => some 'r'
  | 0x1B => some 'e'
  | 0x22 => some '"'
  | 0x5C => some '\\'
  | 0x85 => some 'N'
  | 0xA0 => some '_'
  | 0x2028 => some 'L'
  | 0x2029 => some 'P'
  | _ => none

def escape (c : Char) : List Char :=
  if isVisible c && !isBreak c && c != '"' && c != '\\' then [c]
  else
    match escapeLetter? c with
    | some letter => ['\\', letter]
    | none =>
      if c.toNat ≤ 0xFF then '\\' :: 'x' :: paddedHex 2 c.toNat
      else if c.toNat ≤ 0xFFFF then '\\' :: 'u' :: paddedHex 4 c.toNat
      else '\\' :: 'U' :: paddedHex 8 c.toNat

/-- A text with its quotes doubled. -/
def doubleQuotes (cs : List Char) : List Char :=
  cs.flatMap fun c => if c == '\'' then ['\'', '\''] else [c]

/-- A text between single quotes; what follows a line break in it is indented, the closing quote
too. -/
def singleQuoted (indent : Nat) (cs : List Char) : List Char :=
  let closing := if cs.getLast?.any isBreak then blanks indent else []
  '\'' :: (indentLines indent false (doubleQuotes cs) ++ closing ++ ['\''])

/-- The text of a string whose further lines are indented. -/
def writeString (indent : Nat) (cs : List Char) : List Char :=
  match styleOf cs with
  | .plain => cs
  | .literal => '|' :: (literalHeader cs ++ '\n' :: indentLines indent true cs)
  | .singleQuoted => singleQuoted indent cs
  | .doubleQuoted | .folded => '"' :: (cs.flatMap escape ++ ['"'])

end LiveDocument.Yaml
