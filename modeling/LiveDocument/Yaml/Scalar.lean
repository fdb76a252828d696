import LiveDocument.Text.Hex
import LiveDocument.Value.Basic
import LiveDocument.Yaml.Token

/-!
# The meaning of plain scalars

A scalar without quotes and without a tag is null, a boolean, an integer or a float if it is
spelled like one, and otherwise a string. Integers may be written in four bases; digits with a
superfluous zero in front are a string. An integer beyond 64 but not beyond 128 bits is refused.
-/

namespace LiveDocument.Yaml

/-- What a plain scalar may mean. -/
inductive Meaning where
  | value (v : Value)
  | text
  | refused

/-- The spellings of null. -/
def isNullWord (cs : List Char) : Bool :=
  cs == ['n', 'u', 'l', 'l'] || cs == ['N', 'u', 'l', 'l'] || cs == ['N', 'U', 'L', 'L'] ||
    cs == ['~']

def boolean? (cs : List Char) : Option Bool :=
  if cs == "true".toList || cs == "True".toList || cs == "TRUE".toList then some true
  else if cs == "false".toList || cs == "False".toList || cs == "FALSE".toList then some false
  else none

/-- The text without a sign, and whether the sign was a minus. -/
def splitSign : List Char → Bool × List Char
  | '-' :: cs => (true, cs)
  | '+' :: cs => (false, cs)
  | cs => (false, cs)

/-- Digits with a superfluous zero in front. -/
def isPaddedNumeral (cs : List Char) : Bool :=
  match (splitSign cs).2 with
  | '0' :: d :: ds => (d :: ds).all Char.isDigit
  | _ => false

/-- The number of a nonempty list of digits in a base up to sixteen. -/
def digitsIn? (base : Nat) (cs : List Char) : Option Nat :=
  if cs.isEmpty then none
  else
    cs.foldl
      (fun n c => n.bind fun n =>
        (Text.hexValue? c).bind fun d => if d < base then some (n * base + d) else none)
      (some 0)

/-- The number of an unsigned numeral. -/
def magnitude? : List Char → Option Nat
  | '0' :: 'x' :: cs => digitsIn? 16 cs
  | '0' :: 'o' :: cs => digitsIn? 8 cs
  | '0' :: 'b' :: cs => digitsIn? 2 cs
  | cs => digitsIn? 10 cs

/-- The integer that a text spells, of any size up to 128 bits. -/
def integer? (cs : List Char) : Option Int :=
  if isPaddedNumeral cs then none
  else
    let (negative, ds) := splitSign cs
    (magnitude? ds).bind fun n =>
      let i : Int := if negative then -(n : Int) else n
      if -Nat.pow 2 127 ≤ i ∧ i < Nat.pow 2 128 then some i else none

/-- The number that a text spells as an exponent: nothing, or a sign and digits after a letter. -/
def exponent? : List Char → Option Int
  | [] => some 0
  | c :: cs =>
    if c != 'e' && c != 'E' then none
    else
      let (negative, ds) := splitSign cs
      (digitsIn? 10 ds).map fun n => if negative then -(n : Int) else n

/-- The finite float that a text spells: digits with a point among them, at an end of them or
nowhere, and perhaps an exponent. -/
def decimal? (negative : Bool) (cs : List Char) : Option Binary64 :=
  let whole := cs.takeWhile Char.isDigit
  let rest := cs.dropWhile Char.isDigit
  let (part, rest) := match rest with
    | '.' :: more => (more.takeWhile Char.isDigit, more.dropWhile Char.isDigit)
    | _ => ([], rest)
  (digitsIn? 10 (whole ++ part)).bind fun significand =>
    (exponent? rest).bind fun exponent =>
      Binary64.ofDecimal? negative significand (exponent - part.length)

/-- The spellings of an infinity without its sign. -/
def isInfinityWord (cs : List Char) : Bool :=
  cs == ".inf".toList || cs == ".Inf".toList || cs == ".INF".toList

/-- The spellings of what is not a number. -/
def isNanWord (cs : List Char) : Bool :=
  cs == ".nan".toList || cs == ".NaN".toList || cs == ".NAN".toList

/-- The value that a text spells as a float. What is not finite has no float and is null. -/
def float? (cs : List Char) : Option Value :=
  let (negative, magnitude) := splitSign cs
  if isInfinityWord magnitude || isNanWord cs then some .null
  else (decimal? negative magnitude).map .float

/-- The meaning of a plain scalar without a tag. -/
def meaning (cs : List Char) : Meaning :=
  if cs.isEmpty || isNullWord cs then .value .null
  else
    match boolean? cs with
    | some b => .value (.boolean b)
    | none =>
      match integer? cs with
      | some i =>
        match Integer.ofInt? i with
        | some i => .value (.integer i)
        | none => .refused
      | none =>
        if isPaddedNumeral cs then .text
        else
          match float? cs with
          | some v => .value v
          | none => .text

def stringOf (cs : List Char) : Value :=
  .string (String.ofList cs)

/-- The value of a scalar without a tag: only plain ones are more than strings. -/
def untaggedValue? (text : List Char) (style : Style) : Option Value :=
  if style = .plain then
    match meaning text with
    | .value v => some v
    | .text => some (stringOf text)
    | .refused => none
  else some (stringOf text)

/-- The value of a scalar with this tag and style. Tags of the core schema hold the text to
their type, whatever its style; a tag of one's own means none, and other tags make a string. -/
def scalarValue? (tag : Option Tag) (text : List Char) (style : Style) : Option Value :=
  match tag with
  | none => untaggedValue? text style
  | some tag =>
    if tag == Tag.core "bool" then (boolean? text).map .boolean
    else if tag == Tag.core "int" then
      ((integer? text).bind Integer.ofInt?).map .integer
    else if tag == Tag.core "float" then float? text
    else if tag == Tag.core "null" then if isNullWord text then some .null else none
    else if tag.isOwn then untaggedValue? text style
    else some (stringOf text)

end LiveDocument.Yaml
