import LiveDocument.Yaml.Cursor

/-!
# Plain scalars

Scalars without quotes. They end at a comment, at a colon before a gap, at an indicator inside
brackets, at a document marker, or where the text is indented less than they are. Line breaks
inside are folded.
-/

namespace LiveDocument.Yaml

/-- The characters that end a plain scalar inside brackets. -/
def isFlowIndicator (c : Char) : Bool :=
  c == ',' || c == '[' || c == ']' || c == '\x7b' || c == '\x7d'

/-- Takes the characters of a word, one for each step, onto `text`, the last of which is the
head. A colon before an indicator is refused inside brackets. -/
def takePlainWord (flow : Bool) :
    (steps : Nat) → (text : List Char) → Cursor → Option (List Char × Cursor)
  | 0, text, c => some (text, c)
  | steps + 1, text, c =>
    match c.here with
    | none => some (text, c)
    | some ch =>
      if isSpace ch || isBreak ch then some (text, c)
      else if flow && ch == ':' && c.seesWhere (fun d => isFlowIndicator d || d == '?') 1 then none
      else if ch == ':' && c.gapAt 1 then some (text, c)
      else if flow && isFlowIndicator ch then some (text, c)
      else takePlainWord flow steps (ch :: text) (c.skip 1)

/-- Takes words and gaps. The flag tells that the scalar was followed by a line break. -/
def takePlainFrom (flow : Bool) (floor : Nat) :
    (steps : Nat) → (text : List Char) → Gap → Cursor → Option (List Char × Bool × Cursor)
  | 0, text, gap, c => some (text.reverse, gap.broken, c)
  | steps + 1, text, gap, c =>
    if c.seesDocumentMarker || c.sees '#' 0 then some (text.reverse, gap.broken, c)
    else
      (takePlainWord flow (c.rest.length + 1) [] c).bind fun (word, after) =>
        if word.isEmpty then some (text.reverse, gap.broken, c)
        else
          let text := word ++ (gap.text.reverse ++ text)
          if after.endsAt 0 || !after.gapAt 0 then some (text.reverse, false, after)
          else
            (takeGap floor (after.rest.length + 1) Gap.none after).bind fun (gap, c) =>
              if !flow && c.column < floor then some (text.reverse, gap.broken, c)
              else takePlainFrom flow floor steps text gap c

/-- Takes a plain scalar, whose later lines are indented to `floor` at least. -/
def takePlain (flow : Bool) (floor : Nat) (c : Cursor) : Option (List Char × Bool × Cursor) :=
  takePlainFrom flow floor (c.rest.length + 1) [] Gap.none c

end LiveDocument.Yaml
