import LiveDocument.Address.Segment
import LiveDocument.Text.Blank

/-!
# Addresses

A query is a text, a place or a slice. As an address it is a list of segments, relative to the
place it is asked from or, when the text begins with the delimiter, absolute. Nothing is
refused: what is neither a place nor a slice is a key.
-/

namespace LiveDocument

/-- What a place in a document is asked for with. -/
inductive Query where
  | text (s : String)
  | index (place : Int64)
  | slice (s : Slice)
  deriving DecidableEq

/-- Segments that start at the root or at the place that asks. -/
structure Address where
  segments : Path
  absolute : Bool
  delimiter : String
  deriving DecidableEq

namespace Address

/-- The segments of a text without its leading delimiter: none for the empty text, one if the
delimiter is empty. -/
def segmentsOf (delimiter cs : List Char) : Path :=
  if cs.isEmpty then []
  else if delimiter.isEmpty then [Segment.classify cs]
  else (Text.split delimiter cs).map Segment.classify

/-- The address of a query. Blanks around a text do not count. -/
def parse (query : Query) (delimiter : String) : Address :=
  match query with
  | .index place => ⟨[.index place], false, delimiter⟩
  | .slice s => ⟨[.slice s], false, delimiter⟩
  | .text s =>
    let cs := Text.trim s.toList
    let sep := delimiter.toList
    match if sep.isEmpty then none else Text.stripPrefix? sep cs with
    | some rest => ⟨segmentsOf sep rest, true, delimiter⟩
    | none => ⟨segmentsOf sep cs, false, delimiter⟩

/-- The last segment selects. -/
def endsWithSlice (a : Address) : Bool :=
  match a.segments.getLast? with
  | some s => s.isSlice
  | none => false

/-- The path from the root that the address denotes at a place. -/
def fullPath (a : Address) (context : Path) : Path :=
  if a.absolute then a.segments else context ++ a.segments

/-- The canonical text of the full path. -/
def canonical (a : Address) (context : Path) : String :=
  (a.fullPath context).text a.delimiter

/-- The canonical text of the address itself: an absolute one begins with the delimiter. -/
def text (a : Address) : String :=
  if a.absolute then a.delimiter ++ a.segments.text a.delimiter
  else a.segments.text a.delimiter

end Address

def Path.address (path : Path) (delimiter : String) : String :=
  delimiter ++ path.text delimiter

end LiveDocument
