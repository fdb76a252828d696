import LiveDocument.Yaml.Cursor
import LiveDocument.Text.Numeral

/-!
# Block scalars

Literal and folded scalars: a header line, then lines indented alike. The header may give the
indentation, and whether the line breaks at the end are dropped, cut to one or kept.
-/

namespace LiveDocument.Yaml

/-- What happens to the line breaks at the end. -/
inductive Chomping where
  | strip
  | clip
  | keep
  deriving DecidableEq

/-- Takes a chomping mark, if there is one. -/
def takeChomping (c : Cursor) : Option Chomping × Cursor :=
  if c.sees '+' 0 then (some .keep, c.skip 1)
  else if c.sees '-' 0 then (some .strip, c.skip 1)
  else (none, c)

/-- Takes a digit of indentation, if there is one; zero is refused. -/
def takeIndentDigit (c : Cursor) : Option (Nat × Cursor) :=
  match c.here with
  | some d =>
    if d.isDigit then if d == '0' then none else some (Text.digitValue d, c.skip 1)
    else some (0, c)
  | none => some (0, c)

/-- Takes the marks of a header, in either order: the chomping, and the indentation or zero. -/
def takeHeader (c : Cursor) : Option (Chomping × Nat × Cursor) :=
  match takeChomping c with
  | (some chomping, c) => (takeIndentDigit c).map fun (n, c) => (chomping, n, c)
  | (none, c) =>
    (takeIndentDigit c).map fun (n, c) =>
      if n = 0 then (.clip, 0, c)
      else
        match takeChomping c with
        | (some chomping, c) => (chomping, n, c)
        | (none, c) => (.clip, n, c)

/-- Takes indentation and empty lines, one line for each step: the line breaks, the widest
indentation seen and the position of the first line that is not empty. An indentation of zero
is not known yet. A tab in the indentation is refused. -/
def takeEmptyLines (indent : Nat) :
    (steps : Nat) → (breaks : List Char) → (widest : Nat) → Cursor →
      Option (List Char × Nat × Cursor)
  | 0, breaks, widest, c => some (breaks, widest, c)
  | steps + 1, breaks, widest, c =>
    let blanks := (c.rest.takeWhile (· == ' ')).length
    let c := c.skip (if indent = 0 then blanks else min blanks (indent - c.column))
    let widest := max widest c.column
    if (indent = 0 || c.column < indent) && c.sees '\t' 0 then none
    else if c.seesWhere isBreak 0 then
      let (br, c) := c.takeBreak
      takeEmptyLines indent steps (breaks ++ br) widest c
    else some (breaks, widest, c)

/-- The content gathered so far: the text, the line break after the last line, the empty lines
after it, and whether the last line began with a blank. -/
structure BlockText where
  text : List Char
  lastBreak : List Char
  emptyLines : List Char
  beganBlank : Bool

/-- Takes the lines of a block, one for each step. A folded block joins two lines that do not
begin with blanks by a blank, or by the empty lines between them. -/
def takeLines (folded : Bool) (indent : Nat) :
    (steps : Nat) → BlockText → Cursor → Option (BlockText × Cursor)
  | 0, b, c => some (b, c)
  | steps + 1, b, c =>
    if c.column ≠ indent || c.endsAt 0 then some (b, c)
    else
      let blank := c.seesWhere isSpace 0
      let glue :=
        if folded && b.lastBreak == ['\n'] && !b.beganBlank && !blank then
          if b.emptyLines.isEmpty then [' '] else b.emptyLines
        else b.lastBreak ++ b.emptyLines
      let line := c.rest.takeWhile fun ch => !isBreak ch
      let (br, c) := (c.skip line.length).takeBreak
      (takeEmptyLines indent (c.rest.length + 1) [] 0 c).bind fun (breaks, _, c) =>
        takeLines folded indent steps ⟨b.text ++ glue ++ line, br, breaks, blank⟩ c

/-- Takes a block scalar; the cursor is on its indicator, and `parent` is one more than the
column of the block around it. -/
def takeBlock (folded : Bool) (parent : Nat) (c : Cursor) : Option (List Char × Cursor) :=
  (takeHeader (c.skip 1)).bind fun (chomping, increment, c) =>
    let c := c.skipWhile isSpace
    let c := if c.sees '#' 0 then c.skipToBreak else c
    if !c.lineEnds then none
    else
      let c := c.skipBreak
      let given := if increment = 0 then 0 else (parent - 1) + increment
      (takeEmptyLines given (c.rest.length + 1) [] 0 c).bind fun (breaks, widest, c) =>
        let indent := if given = 0 then max (max widest parent) 1 else given
        (takeLines folded indent (c.rest.length + 1) ⟨[], [], breaks, false⟩ c).map
          fun (b, c) =>
            match chomping with
            | .strip => (b.text, c)
            | .clip => (b.text ++ b.lastBreak, c)
            | .keep => (b.text ++ b.lastBreak ++ b.emptyLines, c)

end LiveDocument.Yaml
