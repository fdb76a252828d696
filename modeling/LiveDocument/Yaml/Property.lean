import LiveDocument.Text.Numeral
import LiveDocument.Text.Hex
import LiveDocument.Text.Utf8
import LiveDocument.Yaml.Cursor
import LiveDocument.Yaml.Token

/-!
# Anchors, tags and directives

The marks that stand before a node, and the lines that stand before a document.
-/

namespace LiveDocument.Yaml

/-- Takes the name of an anchor or an alias after its indicator. -/
def takeName (c : Cursor) : Option (List Char × Cursor) :=
  let name := c.rest.takeWhile isWord
  let after := c.skip name.length
  let ends := after.gapAt 0 ||
    after.seesWhere (fun d => d == '?' || d == ':' || d == ',' || d == ']' || d == '\x7d' ||
      d == '%' || d == '@' || d == '`') 0
  if name.isEmpty || !ends then none else some (name, after)

/-- The characters of a tag outside and inside angle brackets. -/
def isTagChar (bracketed : Bool) (c : Char) : Bool :=
  isWord c || c == ';' || c == '/' || c == '?' || c == ':' || c == '@' || c == '&' || c == '=' ||
    c == '+' || c == '$' || c == '.' || c == '%' || c == '!' || c == '~' || c == '*' ||
    c == '\'' || c == '(' || c == ')' ||
    (bracketed && (c == ',' || c == '[' || c == ']'))

/-- The bytes of percent escapes at the start of a text, at most `fuel` of them. -/
def percentBytes : (fuel : Nat) → List Char → Option (List UInt8)
  | 0, _ => some []
  | fuel + 1, '%' :: a :: b :: rest =>
    match Text.hexValue? a, Text.hexValue? b with
    | some a, some b => (percentBytes fuel rest).map fun bs => (a * 16 + b).toUInt8 :: bs
    | _, _ => none
  | _, '%' :: _ => none
  | _, _ => some []

/-- The percent escapes at the start of a text that are as many as the first of them demands,
with trailing bytes after the first. Together they need not spell a character. -/
def escapedForm? (cs : List Char) : Option (List UInt8) :=
  ((percentBytes 1 cs).bind List.head?).bind fun first =>
    (Text.sequenceLength? first).bind fun n =>
      (percentBytes n cs).bind fun bs =>
        if bs.length == n && bs.tail.all Text.isTrailing then some bs else none

/-- Takes the bytes of a tag, those of one character or of one escaped form for each step. -/
def takeTagBytes (bracketed : Bool) : (steps : Nat) → Cursor → Option (List UInt8 × Cursor)
  | 0, c => some ([], c)
  | steps + 1, c =>
    match c.here with
    | none => some ([], c)
    | some ch =>
      if !isTagChar bracketed ch then some ([], c)
      else
        let taken := if ch == '%' then escapedForm? c.rest else some (Text.bytes [ch])
        taken.bind fun bs =>
          let written := if ch == '%' then 3 * bs.length else 1
          (takeTagBytes bracketed steps (c.skip written)).map fun (more, c) => (bs ++ more, c)

/-- Takes a tag handle: an exclamation mark, word characters, and perhaps another mark. -/
def takeHandle (c : Cursor) : Option (List Char × Cursor) :=
  if !c.sees '!' 0 then none
  else
    let word := (c.rest.drop 1).takeWhile isWord
    let after := c.skip (word.length + 1)
    if after.sees '!' 0 then some ('!' :: (word ++ ['!']), after.skip 1)
    else some ('!' :: word, after)

/-- Takes a tag: its handle, empty for a complete tag, and the rest of it. -/
def takeTag (flow : Bool) (c : Cursor) : Option (Token × Cursor) :=
  let taken : Option (Token × Cursor) :=
    if c.sees '<' 1 then
      (takeTagBytes true (c.rest.length + 1) (c.skip 2)).bind fun (bs, c) =>
        if bs.isEmpty || !c.sees '>' 0 then none else some (.tag [] (Tag.ofBytes bs), c.skip 1)
    else
      (takeHandle c).bind fun (handle, after) =>
        if 1 < handle.length && handle.getLast? == some '!' then
          (takeTagBytes false (c.rest.length + 1) after).bind fun (bs, c) =>
            if bs.isEmpty then none else some (.tag handle (Tag.ofBytes bs), c)
        else
          (takeTagBytes false (c.rest.length + 1) after).map fun (bs, c) =>
            let suffix := Tag.ofBytes (Text.bytes (handle.drop 1) ++ bs)
            if suffix.isEmpty then (.tag [] Tag.ownMark, c) else (.tag ['!'] suffix, c)
  taken.bind fun (tag, c) =>
    if (flow && c.sees ',' 0) || c.gapAt 0 then some (tag, c) else none

/-- Takes a number of a version, of nine digits at most. -/
def takeVersionNumber (c : Cursor) : Option (Nat × Cursor) :=
  let digits := c.rest.takeWhile Char.isDigit
  if digits.isEmpty || 9 < digits.length then none
  else some (Text.digitsValue digits, c.skip digits.length)

/-- Takes the value of a version directive. -/
def takeVersion (c : Cursor) : Option (Token × Cursor) :=
  (takeVersionNumber (c.skipWhile isSpace)).bind fun (major, c) =>
    if !c.sees '.' 0 then none
    else (takeVersionNumber (c.skip 1)).map fun (minor, c) => (.versionDirective major minor, c)

/-- Takes the value of a tag directive: a handle, and what it stands for. -/
def takeTagDirective (c : Cursor) : Option (Token × Cursor) :=
  (takeHandle (c.skipWhile isSpace)).bind fun (handle, c) =>
    if handle ≠ ['!'] && handle.getLast? ≠ some '!' then none
    else if !c.seesWhere isSpace 0 then none
    else
      let c := c.skipWhile isSpace
      (takeTagBytes true (c.rest.length + 1) c).bind fun (bs, c) =>
        if bs.isEmpty || !c.gapAt 0 then none
        else some (.tagDirective handle (Tag.ofBytes bs), c)

/-- Takes a directive; the cursor is on its percent sign. -/
def takeDirective (c : Cursor) : Option (Token × Cursor) :=
  let name := (c.rest.drop 1).takeWhile isWord
  let after := c.skip (name.length + 1)
  if name.isEmpty || !after.gapAt 0 then none
  else
    let taken :=
      if name == ['Y', 'A', 'M', 'L'] then takeVersion after
      else if name == ['T', 'A', 'G'] then takeTagDirective after
      else none
    taken.bind fun (token, c) =>
      let c := c.skipWhile isSpace
      let c := if c.sees '#' 0 then c.skipToBreak else c
      if c.lineEnds then some (token, c.skipBreak) else none

end LiveDocument.Yaml
