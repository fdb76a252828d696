import LiveDocument.Yaml.Block
import LiveDocument.Yaml.Plain
import LiveDocument.Yaml.Property
import LiveDocument.Yaml.Quoted

/-!
# The tokens of a text

The tokens are found from left to right. Two things are known only later: that a block has
ended, when a line is indented less; and that a scalar was the key of a mapping, when a colon
follows it on the same line. The place before each token that may turn out to be such a simple
key is remembered, and the tokens of the key and its mapping are put in there.
-/

namespace LiveDocument.Yaml

/-- A place where a simple key may stand: how many tokens came before it, and where it is in
the text. A required one is not allowed to stay without its colon. -/
structure SimpleKey where
  possible : Bool
  required : Bool
  number : Nat
  bytes : Nat
  line : Nat
  column : Nat

/-- No simple key. -/
def SimpleKey.impossible : SimpleKey :=
  ⟨false, false, 0, 0, 0, 0⟩

/-- What is known between two tokens: the position, the tokens so far, the columns of the open
blocks one too great, with the innermost first, the simple key of this level and of the flow
collections around it, and whether a simple key may start here. -/
structure Lexer where
  cursor : Cursor
  tokens : Array Token
  blocks : List Nat
  simpleKey : SimpleKey
  outerKeys : List SimpleKey
  keyAllowed : Bool

namespace Lexer

def start (cs : List Char) : Lexer where
  cursor := Cursor.start cs
  tokens := #[]
  blocks := []
  simpleKey := SimpleKey.impossible
  outerKeys := []
  keyAllowed := true

/-- Inside brackets or braces. -/
def inFlow (l : Lexer) : Bool :=
  !l.outerKeys.isEmpty

/-- One more than the column of the innermost block. -/
def floor (l : Lexer) : Nat :=
  l.blocks.headD 0

def push (l : Lexer) (t : Token) : Lexer :=
  { l with tokens := l.tokens.push t }

def pushAt (l : Lexer) (t : Token) (c : Cursor) : Lexer :=
  { l with tokens := l.tokens.push t, cursor := c }

/-- Puts a token before those from `number` on. -/
def insertAt (l : Lexer) (number : Nat) (t : Token) : Lexer :=
  { l with tokens := l.tokens.insertIdxIfInBounds number t }

/-- A simple key that has to end on this line within 1024 bytes and did not is given up,
or refused if it was required. -/
def giveUp? (c : Cursor) (k : SimpleKey) : Option SimpleKey :=
  if k.possible && (k.line < c.line || k.bytes + 1024 < c.bytes) then
    if k.required then none else some { k with possible := false }
  else some k

/-- Gives up the simple keys that cannot be any more. -/
def giveUpKeys? (l : Lexer) : Option Lexer :=
  (giveUp? l.cursor l.simpleKey).bind fun key =>
    (l.outerKeys.mapM (giveUp? l.cursor)).map fun outer =>
      { l with simpleKey := key, outerKeys := outer }

/-- Drops the simple key of this level, if it was not required. -/
def dropKey? (l : Lexer) : Option Lexer :=
  if l.simpleKey.possible && l.simpleKey.required then none
  else some { l with simpleKey := { l.simpleKey with possible := false } }

/-- Remembers this place as one for a simple key, if one is allowed. -/
def saveKey? (l : Lexer) : Option Lexer :=
  if l.keyAllowed then
    l.dropKey?.map fun l =>
      let c := l.cursor
      { l with
        simpleKey :=
          ⟨true, !l.inFlow && l.floor == c.column + 1, l.tokens.size, c.bytes, c.line, c.column⟩ }
  else some l

/-- Opens a block at a column if it lies further in than the innermost one; the token of its
start goes before those from `number` on, or to the end. -/
def openBlock (l : Lexer) (column : Nat) (number : Option Nat) (t : Token) : Lexer :=
  if !l.inFlow && l.floor < column + 1 then
    let l := { l with blocks := (column + 1) :: l.blocks }
    match number with
    | some n => l.insertAt n t
    | none => l.push t
  else l

/-- Closes the blocks whose columns, one too great, exceed `floor`. -/
def closeBlocks (l : Lexer) (floor : Nat) : Lexer :=
  if l.inFlow then l
  else
    let closed := (l.blocks.takeWhile fun b => floor < b).length
    { l with
      blocks := l.blocks.drop closed
      tokens := l.tokens ++ Array.replicate closed Token.blockEnd }

/-- Moves over blanks, comments and line breaks, one line for each step. Outside brackets a
simple key may start on a new line. -/
def skipToToken : (steps : Nat) → Lexer → Lexer
  | 0, l => l
  | steps + 1, l =>
    let c := l.cursor
    let c := if c.column == 0 && c.sees byteOrderMark 0 then c.skip 1 else c
    let c := c.skipWhile fun ch => ch == ' ' || ((l.inFlow || !l.keyAllowed) && ch == '\t')
    let c := if c.sees '#' 0 then c.skipToBreak else c
    if c.seesWhere isBreak 0 then
      skipToToken steps
        { l with cursor := c.skipBreak, keyAllowed := l.keyAllowed || !l.inFlow }
    else { l with cursor := c }

/-- The end of the text: all blocks are closed. -/
def takeEnd (l : Lexer) : Option Lexer :=
  (l.closeBlocks 0).dropKey?.map fun l => l.push .streamEnd

def takeDirectiveToken (l : Lexer) : Option Lexer :=
  (l.closeBlocks 0).dropKey?.bind fun l =>
    (takeDirective l.cursor).map fun (t, c) => { l.pushAt t c with keyAllowed := false }

/-- The start or the end of a document. -/
def takeMarker (l : Lexer) (t : Token) : Option Lexer :=
  (l.closeBlocks 0).dropKey?.map fun l =>
    { l.pushAt t (l.cursor.skip 3) with keyAllowed := false }

def takeFlowStart (l : Lexer) (t : Token) : Option Lexer :=
  l.saveKey?.map fun l =>
    { l.pushAt t (l.cursor.skip 1) with
      outerKeys := l.simpleKey :: l.outerKeys
      simpleKey := SimpleKey.impossible
      keyAllowed := true }

def takeFlowEnd (l : Lexer) (t : Token) : Option Lexer :=
  l.dropKey?.map fun l =>
    let l := { l.pushAt t (l.cursor.skip 1) with keyAllowed := false }
    match l.outerKeys with
    | key :: outer => { l with simpleKey := key, outerKeys := outer }
    | [] => l

/-- A comma between the members of a flow collection. -/
def takeFlowEntry (l : Lexer) : Option Lexer :=
  l.dropKey?.map fun l => { l.pushAt .flowEntry (l.cursor.skip 1) with keyAllowed := true }

/-- The dash of a sequence in block form. -/
def takeBlockEntry (l : Lexer) : Option Lexer :=
  if !l.inFlow && !l.keyAllowed then none
  else
    (l.openBlock l.cursor.column none .blockSequenceStart).dropKey?.map fun l =>
      { l.pushAt .blockEntry (l.cursor.skip 1) with keyAllowed := true }

def takeKey (l : Lexer) : Option Lexer :=
  if !l.inFlow && !l.keyAllowed then none
  else
    (l.openBlock l.cursor.column none .blockMappingStart).dropKey?.map fun l =>
      { l.pushAt .key (l.cursor.skip 1) with keyAllowed := !l.inFlow }

/-- The colon of a value: what stood at the remembered place was its key. -/
def takeValue (l : Lexer) : Option Lexer :=
  let k := l.simpleKey
  if k.possible then
    let l := (l.insertAt k.number .key).openBlock k.column (some k.number) .blockMappingStart
    some
      { l.pushAt .value (l.cursor.skip 1) with
        simpleKey := { k with possible := false }
        keyAllowed := false }
  else if !l.inFlow && !l.keyAllowed then none
  else
    let l := l.openBlock l.cursor.column none .blockMappingStart
    some { l.pushAt .value (l.cursor.skip 1) with keyAllowed := !l.inFlow }

def takeNameToken (l : Lexer) (token : List Char → Token) : Option Lexer :=
  l.saveKey?.bind fun l =>
    (takeName (l.cursor.skip 1)).map fun (name, c) =>
      { l.pushAt (token name) c with keyAllowed := false }

def takeTagToken (l : Lexer) : Option Lexer :=
  l.saveKey?.bind fun l =>
    (takeTag l.inFlow l.cursor).map fun (t, c) => { l.pushAt t c with keyAllowed := false }

def takeBlockScalar (l : Lexer) (folded : Bool) : Option Lexer :=
  l.dropKey?.bind fun l =>
    (takeBlock folded l.floor l.cursor).map fun (text, c) =>
      { l.pushAt (.scalar text (if folded then .folded else .literal)) c with keyAllowed := true }

def takeQuotedScalar (l : Lexer) (quote : Char) : Option Lexer :=
  l.saveKey?.bind fun l =>
    (takeQuoted quote l.cursor).map fun (text, c) =>
      let style := if quote == '\'' then Style.singleQuoted else Style.doubleQuoted
      { l.pushAt (.scalar text style) c with keyAllowed := false }

/-- A plain scalar; if a line break followed it, a simple key may start after it. -/
def takePlainScalar (l : Lexer) : Option Lexer :=
  l.saveKey?.bind fun l =>
    (takePlain l.inFlow l.floor l.cursor).map fun (text, broken, c) =>
      { l.pushAt (.scalar text .plain) c with keyAllowed := broken }

/-- The characters that no plain scalar starts with. -/
def isIndicator (c : Char) : Bool :=
  c == '-' || c == '?' || c == ':' || c == ',' || c == '[' || c == ']' || c == '\x7b' ||
    c == '\x7d' || c == '#' || c == '&' || c == '*' || c == '!' || c == '|' || c == '>' ||
    c == '\'' || c == '"' || c == '%' || c == '@' || c == '`'

/-- A plain scalar starts here: a dash may stand before anything but a blank, and outside
brackets a question mark and a colon before anything but a gap. -/
def startsPlain (l : Lexer) : Bool :=
  let c := l.cursor
  (!c.gapAt 0 && !c.seesWhere isIndicator 0) ||
    (c.sees '-' 0 && !c.seesWhere isSpace 1) ||
    (!l.inFlow && (c.sees '?' 0 || c.sees ':' 0) && !c.gapAt 1)

/-- Takes the token that starts here, unless the text ends. -/
def takeToken (l : Lexer) (ch : Char) : Option Lexer :=
  let c := l.cursor
  if c.column == 0 && ch == '%' then l.takeDirectiveToken
  else if c.seesMarker '-' then l.takeMarker .documentStart
  else if c.seesMarker '.' then l.takeMarker .documentEnd
  else if ch == '[' then l.takeFlowStart .flowSequenceStart
  else if ch == '\x7b' then l.takeFlowStart .flowMappingStart
  else if ch == ']' then l.takeFlowEnd .flowSequenceEnd
  else if ch == '\x7d' then l.takeFlowEnd .flowMappingEnd
  else if ch == ',' then l.takeFlowEntry
  else if ch == '-' && c.gapAt 1 then l.takeBlockEntry
  else if ch == '?' && (l.inFlow || c.gapAt 1) then l.takeKey
  else if ch == ':' && (l.inFlow || c.gapAt 1) then l.takeValue
  else if ch == '*' then l.takeNameToken .alias
  else if ch == '&' then l.takeNameToken .anchor
  else if ch == '!' then l.takeTagToken
  else if ch == '|' && !l.inFlow then l.takeBlockScalar false
  else if ch == '>' && !l.inFlow then l.takeBlockScalar true
  else if ch == '\'' || ch == '"' then l.takeQuotedScalar ch
  else if l.startsPlain then l.takePlainScalar
  else none

/-- Takes the remaining tokens, one for each step. -/
def run : (steps : Nat) → Lexer → Option (Array Token)
  | 0, _ => none
  | steps + 1, l =>
    (skipToToken (l.cursor.rest.length + 1) l).giveUpKeys?.bind fun l =>
      let l := l.closeBlocks (l.cursor.column + 1)
      match l.cursor.here with
      | none =>
        let c := l.cursor
        let atLineStart := if c.column == 0 then c else ⟨c.rest, c.bytes, c.line + 1, 0⟩
        ({ l with cursor := atLineStart }).takeEnd.map tokens
      | some ch => (l.takeToken ch).bind (run steps)

end Lexer

/-- The tokens of a text; every token but the last has at least one character. -/
def tokens? (cs : List Char) : Option (Array Token) :=
  if cs.all isReadable then (Lexer.start cs).run (cs.length + 1) else none

end LiveDocument.Yaml
