import LiveDocument.Text.Hex
import LiveDocument.Yaml.Cursor

/-!
# Quoted scalars

Scalars in single quotes, where a doubled quote stands for one, and in double quotes, with
escapes. Line breaks inside either are folded.
-/

namespace LiveDocument.Yaml

/-- The number of hexadecimal digits after an escape letter. -/
def escapeLength? : Char → Option Nat
  | 'x' => some 2
  | 'u' => some 4
  | 'U' => some 8
  | _ => none

def escapedChar? : Char → Option Char
  | '0' => some '\x00'
  | 'a' => some '\x07'
  | 'b' => some '\x08'
  | 't' => some '\t'
  | '\t' => some '\t'
  | 'n' => some '\n'
  | 'v' => some '\x0b'
  | 'f' => some '\x0c'
  | 'r' => some '\r'
  | 'e' => some '\x1b'
  | ' ' => some ' '
  | '"' => some '"'
  | '/' => some '/'
  | '\\' => some '\\'
  | 'N' => some nextLine
  | '_' => some '\u00a0'
  | 'L' => some '\u2028'
  | 'P' => some '\u2029'
  | _ => none

/-- The number of a list of hexadecimal digits. -/
def hexNumber? (cs : List Char) : Option Nat :=
  cs.foldl (fun n c => n.bind fun n => (Text.hexValue? c).map fun d => n * 16 + d) (some 0)

/-- The character of a code point, unless it is half of a surrogate pair or too great. -/
def charOf? (n : Nat) : Option Char :=
  if (0xD800 ≤ n ∧ n ≤ 0xDFFF) ∨ 0x10FFFF < n then none else some (Char.ofNat n)

def takeEscape (c : Cursor) : Option (Char × Cursor) :=
  c.here.bind fun letter =>
    match escapeLength? letter with
    | some n =>
      let digits := (c.rest.drop 1).take n
      if digits.length < n then none
      else ((hexNumber? digits).bind charOf?).map fun ch => (ch, c.skip (n + 1))
    | none => (escapedChar? letter).map fun ch => (ch, c.skip 1)

/-- Takes the characters up to a gap or the closing quote, one for each step, onto `text`, the
last of which is the head. The flag tells that the word ended with an escaped line break. -/
def takeQuotedWord (quote : Char) :
    (steps : Nat) → (text : List Char) → Cursor → Option (List Char × Bool × Cursor)
  | 0, text, c => some (text, false, c)
  | steps + 1, text, c =>
    match c.here with
    | none => some (text, false, c)
    | some ch =>
      if isSpace ch || isBreak ch then some (text, false, c)
      else if ch == quote then
        if quote == '\'' && c.sees '\'' 1 then
          takeQuotedWord quote steps ('\'' :: text) (c.skip 2)
        else some (text, false, c)
      else if ch == '\\' && quote == '"' then
        if c.seesWhere isBreak 1 then some (text, true, (c.skip 1).skipBreak)
        else (takeEscape (c.skip 1)).bind fun (e, c) => takeQuotedWord quote steps (e :: text) c
      else takeQuotedWord quote steps (ch :: text) (c.skip 1)

/-- Takes words and gaps up to the closing quote and over it. -/
def takeQuotedFrom (quote : Char) :
    (steps : Nat) → (text : List Char) → Cursor → Option (List Char × Cursor)
  | 0, _, _ => none
  | steps + 1, text, c =>
    if c.seesDocumentMarker || c.endsAt 0 then none
    else
      (takeQuotedWord quote (c.rest.length + 1) text c).bind fun (text, escaped, c) =>
        if c.sees quote 0 then some (text.reverse, c.skip 1)
        else
          (takeGap 0 (c.rest.length + 1) { Gap.none with broken := escaped } c).bind
            fun (gap, c) => takeQuotedFrom quote steps (gap.text.reverse ++ text) c

/-- Takes a quoted scalar; the cursor is on its opening quote. -/
def takeQuoted (quote : Char) (c : Cursor) : Option (List Char × Cursor) :=
  takeQuotedFrom quote (c.rest.length + 1) [] (c.skip 1)

end LiveDocument.Yaml
