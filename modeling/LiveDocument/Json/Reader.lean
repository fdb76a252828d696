import LiveDocument.Json.Number
import LiveDocument.Text.Hex
import LiveDocument.Value.Entries

/-!
# Reading JSON text

A text is one value with blanks around it. Containers may be nested 127 deep. A repeated key
keeps its first place and its last value.
-/

namespace LiveDocument.Json

/-- The blanks of JSON. -/
def isBlank (c : Char) : Bool :=
  c == ' ' || c == '\n' || c == '\t' || c == '\r'

/-- The text from its first character that is not blank. -/
def skipBlanks (cs : List Char) : List Char :=
  cs.dropWhile isBlank

def hexWord? (a b c d : Char) : Option Nat :=
  match Text.hexValue? a, Text.hexValue? b, Text.hexValue? c, Text.hexValue? d with
  | some a, some b, some c, some d => some (a * 4096 + b * 256 + c * 16 + d)
  | _, _, _, _ => none

def shortEscape? : Char → Option Char
  | '"' => some '"'
  | '\\' => some '\\'
  | '/' => some '/'
  | 'b' => some '\x08'
  | 'f' => some '\x0c'
  | 'n' => some '\n'
  | 'r' => some '\r'
  | 't' => some '\t'
  | _ => none

/-- Reads a string after its opening quote. `high` is the first half of a surrogate pair that
has been read and waits for the second. -/
def readString : (high : Option Nat) → List Char → Option (List Char × List Char)
  | high, '\\' :: 'u' :: a :: b :: c :: d :: rest =>
    (hexWord? a b c d).bind fun n =>
      match high with
      | some h =>
        if 0xDC00 ≤ n ∧ n ≤ 0xDFFF then
          (readString none rest).map fun (text, rest) =>
            (Char.ofNat (0x10000 + (h - 0xD800) * 0x400 + (n - 0xDC00)) :: text, rest)
        else none
      | none =>
        if 0xD800 ≤ n ∧ n ≤ 0xDBFF then readString (some n) rest
        else if 0xDC00 ≤ n ∧ n ≤ 0xDFFF then none
        else (readString none rest).map fun (text, rest) => (Char.ofNat n :: text, rest)
  | none, '\\' :: e :: rest =>
    (shortEscape? e).bind fun c =>
      (readString none rest).map fun (text, rest) => (c :: text, rest)
  | none, c :: rest =>
    if c = '"' then some ([], rest)
    else if c.toNat < 32 ∨ c = '\\' then none
    else (readString none rest).map fun (text, rest) => (c :: text, rest)
  | _, _ => none

/-- One more than the number of containers that may be open at once. -/
def depthLimit : Nat :=
  128

mutual

/-- Reads a value; `fuel` bounds the calls and `depth` the containers still to be opened. -/
def readValue : (fuel depth : Nat) → List Char → Option (Value × List Char)
  | 0, _, _ => none
  | fuel + 1, depth, cs =>
    match skipBlanks cs with
    | 'n' :: 'u' :: 'l' :: 'l' :: rest => some (.null, rest)
    | 't' :: 'r' :: 'u' :: 'e' :: rest => some (.boolean true, rest)
    | 'f' :: 'a' :: 'l' :: 's' :: 'e' :: rest => some (.boolean false, rest)
    | '"' :: rest =>
      (readString none rest).map fun (text, rest) => (.string (String.ofList text), rest)
    | '[' :: rest =>
      if depth ≤ 1 then none
      else
        match skipBlanks rest with
        | ']' :: rest => some (.sequence [], rest)
        | rest => (readItems fuel (depth - 1) rest).map fun (items, rest) =>
          (.sequence items, rest)
    | '{' :: rest =>
      if depth ≤ 1 then none
      else
        match skipBlanks rest with
        | '}' :: rest => some (.mapping [], rest)
        | rest => (readEntries fuel (depth - 1) rest).map fun (entries, rest) =>
          (.mapping (Entries.ofList entries), rest)
    | rest => readNumber rest

/-- Reads the items of a sequence and its closing bracket. -/
def readItems : (fuel depth : Nat) → List Char → Option (List Value × List Char)
  | 0, _, _ => none
  | fuel + 1, depth, cs =>
    (readValue fuel depth cs).bind fun (item, rest) =>
      match skipBlanks rest with
      | ',' :: rest => (readItems fuel depth rest).map fun (items, rest) => (item :: items, rest)
      | ']' :: rest => some ([item], rest)
      | _ => none

/-- Reads the entries of a mapping and its closing brace. -/
def readEntries : (fuel depth : Nat) → List Char → Option (List (String × Value) × List Char)
  | 0, _, _ => none
  | fuel + 1, depth, cs =>
    match skipBlanks cs with
    | '"' :: rest =>
      (readString none rest).bind fun (key, rest) =>
        match skipBlanks rest with
        | ':' :: rest =>
          (readValue fuel depth rest).bind fun (value, rest) =>
            match skipBlanks rest with
            | ',' :: rest => (readEntries fuel depth rest).map fun (entries, rest) =>
              ((String.ofList key, value) :: entries, rest)
            | '}' :: rest => some ([(String.ofList key, value)], rest)
            | _ => none
        | _ => none
    | _ => none

end

/-- Reads a whole text. Two calls at most are made for each character. -/
def readChars? (cs : List Char) : Option Value :=
  match readValue (2 * cs.length + 2) depthLimit cs with
  | some (v, rest) => if rest.all isBlank then some v else none
  | none => none

def read? (text : String) : Option Value :=
  readChars? text.toList

end LiveDocument.Json
