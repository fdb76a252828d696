import LiveDocument.Address.Slice

/-!
# Segments

One step of an address: a mapping key, a place of a sequence or a slice. A text is classified
by its shape alone: an optional minus sign and digits are a place, the slice grammar is a
slice, and everything else, including numerals beyond a signed word, is a key.
-/

namespace LiveDocument

/-- One step of an address. -/
inductive Segment where
  | key (name : String)
  | index (place : Int64)
  | slice (s : Slice)
  deriving DecidableEq

/-- The steps from the root of a document to a place in it. -/
abbrev Path := List Segment

namespace Segment

/-- The canonical text: a key verbatim, a place in decimal, a slice with three parts. -/
def text : Segment → List Char
  | key name => name.toList
  | index place => Position.text place
  | slice s => s.text

/-- Slices select; keys and places name a single entry. -/
def isSlice : Segment → Bool
  | slice _ => true
  | _ => false

/-- The segment that a text stands for. -/
def classify (cs : List Char) : Segment :=
  match Position.read? cs with
  | some place => index place
  | none =>
    match Slice.read? cs with
    | some s => slice s
    | none => key (String.ofList cs)

end Segment

def Path.text (path : Path) (delimiter : String) : String :=
  String.ofList (Text.join delimiter.toList (path.map Segment.text))

end LiveDocument
