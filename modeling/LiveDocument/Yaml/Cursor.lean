import LiveDocument.Text.Utf8

/-!
# Characters and positions in YAML text

The character classes of YAML and a position in a text, which counts bytes, lines and, in
characters, columns. A text may hold only printable characters, tabs and line breaks.
-/

namespace LiveDocument.Yaml

/-- The next line mark of ISO 6429. -/
def nextLine : Char := '\u0085'

def byteOrderMark : Char := '\ufeff'

/-- The characters that end a line. -/
def isBreak (c : Char) : Bool :=
  c == '\n' || c == '\r' || c == nextLine || c == '\u2028' || c == '\u2029'

/-- Blanks and tabs. -/
def isSpace (c : Char) : Bool :=
  c == ' ' || c == '\t'

/-- The characters of anchors, directive names and tag handles. -/
def isWord (c : Char) : Bool :=
  c.isAlphanum || c == '_' || c == '-'

/-- The characters that a text may hold. -/
def isReadable (c : Char) : Bool :=
  let n := c.toNat
  n == 0x09 || n == 0x0A || n == 0x0D || (0x20 ≤ n && n ≤ 0x7E) || n == 0x85 ||
    (0xA0 ≤ n && n ≤ 0xD7FF) || (0xE000 ≤ n && n ≤ 0xFFFD) || 0x10000 ≤ n

/-- A position in a text: what is left, and how many bytes of its UTF-8 form, how many lines
and how many characters of this line came before. -/
structure Cursor where
  rest : List Char
  bytes : Nat
  line : Nat
  column : Nat

namespace Cursor

def start (cs : List Char) : Cursor :=
  ⟨cs, 0, 0, 0⟩

def ahead (c : Cursor) (n : Nat) : Option Char :=
  c.rest[n]?

def here (c : Cursor) : Option Char :=
  c.rest.head?

/-- The character `n` places ahead is this one. -/
def sees (c : Cursor) (ch : Char) (n : Nat) : Bool :=
  c.ahead n == some ch

/-- The character `n` places ahead satisfies a condition. -/
def seesWhere (c : Cursor) (p : Char → Bool) (n : Nat) : Bool :=
  (c.ahead n).any p

def endsAt (c : Cursor) (n : Nat) : Bool :=
  (c.ahead n).isNone

/-- A blank, a tab, a line break or the end of the text is `n` places ahead. -/
def gapAt (c : Cursor) (n : Nat) : Bool :=
  (c.ahead n).all fun ch => isSpace ch || isBreak ch

/-- A line break or the end of the text is here. -/
def lineEnds (c : Cursor) : Bool :=
  c.here.all isBreak

/-- Moves over `n` characters that are no line breaks. -/
def skip (c : Cursor) (n : Nat) : Cursor :=
  ⟨c.rest.drop n, c.bytes + Text.byteLength (c.rest.take n), c.line, c.column + n⟩

/-- Moves over the characters that satisfy a condition, none of which is a line break. -/
def skipWhile (c : Cursor) (p : Char → Bool) : Cursor :=
  c.skip (c.rest.takeWhile p).length

/-- Moves to the end of the line. -/
def skipToBreak (c : Cursor) : Cursor :=
  c.skipWhile fun ch => !isBreak ch

/-- Takes a line break: its normal form, and the position after it. -/
def takeBreak (c : Cursor) : List Char × Cursor :=
  match c.rest with
  | '\r' :: '\n' :: rest => (['\n'], ⟨rest, c.bytes + 2, c.line + 1, 0⟩)
  | ch :: rest =>
    let after : Cursor := ⟨rest, c.bytes + ch.utf8Size, c.line + 1, 0⟩
    if ch == '\n' || ch == '\r' || ch == nextLine then (['\n'], after)
    else if isBreak ch then ([ch], after)
    else ([], c)
  | [] => ([], c)

def skipBreak (c : Cursor) : Cursor :=
  c.takeBreak.2

/-- Three of a character stand at the start of the line, with a gap after them. -/
def seesMarker (c : Cursor) (ch : Char) : Bool :=
  c.column == 0 && c.sees ch 0 && c.sees ch 1 && c.sees ch 2 && c.gapAt 3

def seesDocumentMarker (c : Cursor) : Bool :=
  c.seesMarker '-' || c.seesMarker '.'

end Cursor

/-- What stands between two words of a scalar: blanks on one line, or line breaks, the first of
them and the later ones. -/
structure Gap where
  spaces : List Char
  firstBreak : List Char
  laterBreaks : List Char
  broken : Bool

/-- Nothing between two words. -/
def Gap.none : Gap :=
  ⟨[], [], [], false⟩

/-- What a gap means: a single line break is folded to a blank, one more than it is dropped. -/
def Gap.text (g : Gap) : List Char :=
  if !g.broken then g.spaces
  else if g.firstBreak == ['\n'] then
    if g.laterBreaks.isEmpty then [' '] else g.laterBreaks
  else g.firstBreak ++ g.laterBreaks

/-- Takes the blanks and line breaks here, one for each step. After a line break blanks only
indent; a tab before column `floor` is refused there. -/
def takeGap (floor : Nat) : (steps : Nat) → Gap → Cursor → Option (Gap × Cursor)
  | 0, g, c => some (g, c)
  | steps + 1, g, c =>
    match c.here with
    | none => some (g, c)
    | some ch =>
      if isSpace ch then
        if g.broken && ch == '\t' && c.column < floor then none
        else if g.broken then takeGap floor steps g (c.skip 1)
        else takeGap floor steps { g with spaces := g.spaces ++ [ch] } (c.skip 1)
      else if isBreak ch then
        let (br, c) := c.takeBreak
        if g.broken then
          takeGap floor steps { g with laterBreaks := g.laterBreaks ++ br } c
        else takeGap floor steps ⟨[], br, g.laterBreaks, true⟩ c
      else some (g, c)

end LiveDocument.Yaml
