import LiveDocument.Number.Binary64
import LiveDocument.Number.Integer

/-!
# Document values

A document is a tree of mappings, sequences and scalars. A mapping keeps its entries in the
order in which their keys first appeared.
-/

namespace LiveDocument

/-- A value of a document. -/
inductive Value where
  | null
  | boolean (b : Bool)
  | integer (i : Integer)
  | float (x : Binary64)
  | string (s : String)
  | sequence (items : List Value)
  | mapping (entries : List (String × Value))
  deriving Inhabited

/-- The shape of a value. -/
inductive Kind where
  | mapping
  | sequence
  | boolean
  | integer
  | float
  | string
  | null
  deriving DecidableEq

namespace Kind

/-- The name of a kind in messages. -/
def text : Kind → String
  | mapping => "mapping"
  | sequence => "sequence"
  | boolean => "boolean"
  | integer => "integer"
  | float => "float"
  | string => "string"
  | null => "null"

/-- Mappings and sequences hold other values. -/
def isContainer : Kind → Bool
  | mapping | sequence => true
  | _ => false

end Kind

/-- The kind of a value. -/
def Value.kind : Value → Kind
  | .null => .null
  | .boolean _ => .boolean
  | .integer _ => .integer
  | .float _ => .float
  | .string _ => .string
  | .sequence _ => .sequence
  | .mapping _ => .mapping

namespace Value

mutual

/-- The strings of a value in their order, the keys of its mappings left out. -/
def strings : Value → List String
  | .string s => [s]
  | .sequence items => stringsAll items
  | .mapping entries => stringsEntries entries
  | _ => []

def stringsAll : List Value → List String
  | [] => []
  | item :: items => strings item ++ stringsAll items

/-- The strings of the values of all entries. -/
def stringsEntries : List (String × Value) → List String
  | [] => []
  | (_, value) :: entries => strings value ++ stringsEntries entries

end

end Value

end LiveDocument
