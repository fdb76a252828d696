import LiveDocument.Handle.Access
import LiveDocument.Value.Comparison

/-!
# Views

A view reads and edits the value of a handle as a mapping, a sequence or a scalar. It keeps the
kind that the value had when it was made; what it finds later may be of another kind, and then
the kept one is named in the failure. Every operation fails first if the handle is not valid.
-/

namespace LiveDocument

/-- A handle, and the kind of its value when the view was made. -/
structure View where
  handle : Handle
  variant : Kind
  deriving DecidableEq

namespace View

def ofHandle (h : Handle) : Live View := do
  return ⟨h, ← h.kind⟩

/-- The view of a value that is of this kind, or null. -/
def expecting (kind : Kind) (h : Handle) : Live View := do
  let found ← h.kind
  if found = kind ∨ found = .null then return ⟨h, found⟩
  else throw (.typeConversion kind found)

/-- The view of a sequence; null stands for an empty one. -/
def sequence (h : Handle) : Live View :=
  expecting .sequence h

/-- The view of a mapping; null stands for an empty one. -/
def mapping (h : Handle) : Live View :=
  expecting .mapping h

/-- The failure of an operation that needs another kind of value. -/
def mismatch {α : Type} (v : View) (expected : Kind) : Live α :=
  throw (.typeConversion expected v.variant)

def value (v : View) : Live Value :=
  v.handle.rawValue

def kind (v : View) : Live Kind :=
  v.handle.kind

/-! ## Containers -/

/-- The number of elements, entries or characters. -/
def length (v : View) : Live Nat := do
  match ← v.value with
  | .mapping entries => return entries.length
  | .sequence items => return items.length
  | .string s => return s.length
  | .null => return 0
  | _ => v.mismatch .sequence

/-- There are no elements, entries or characters. -/
def isEmpty (v : View) : Live Bool := do
  return (← v.length) == 0

/-- A handle for the first place that a query names from here. -/
def get? (v : View) (query : Query) : Live (Option Handle) := do
  match v.variant with
  | .mapping | .sequence => v.handle.get? query
  | .null =>
    let _ ← v.value
    return none
  | _ => v.mismatch .mapping

/-- The segments of the elements of a sequence or the entries of a mapping. -/
def segments : Value → Option (List Segment)
  | .sequence items => some ((List.range items.length).map fun (p : Nat) => .index (Int64.ofInt p))
  | .mapping entries => some ((Entries.keys entries).map .key)
  | .null => some []
  | _ => none

/-- Handles for the entries under segments; where there is none, none. -/
def childrenAt (h : Handle) : List Segment → Live (List Handle)
  | [] => return []
  | segment :: rest => do
    let child ← h.child? segment
    return child.toList ++ (← childrenAt h rest)

/-- Handles for all elements or entries, in order. -/
def children (v : View) : Live (List Handle) := do
  match segments (← v.value) with
  | some names => childrenAt v.handle names
  | none => v.mismatch .sequence

/-- The keys of a mapping, in order. -/
def keys (v : View) : Live (List String) := do
  match ← v.value with
  | .mapping entries => return Entries.keys entries
  | .null => return []
  | _ => v.mismatch .mapping

/-- A text occurs inside another. -/
def occursIn (part : List Char) : List Char → Bool
  | [] => part.isEmpty
  | c :: cs => part.isPrefixOf (c :: cs) || occursIn part cs

/-- An element of a sequence, a key of a mapping or a part of a text. -/
def contains (v : View) (needle : Value) : Live Bool := do
  match ← v.value, needle with
  | .sequence items, _ => return items.any fun item => item.equals needle
  | .mapping entries, .string key => return (Entries.get? key entries).isSome
  | .mapping _, _ => return false
  | .string s, .string part => return occursIn part.toList s.toList
  | .string _, _ => return false
  | .null, _ => return false
  | _, _ => v.mismatch .sequence

def push (v : View) (item : Value) : Live Unit := do
  match ← v.value with
  | .sequence items => v.handle.setRawValue (.sequence (items ++ [item]))
  | _ => v.mismatch .sequence

/-- Stores a value under a key of a mapping: what was there before. -/
def insert (v : View) (key : String) (item : Value) : Live (Option Value) := do
  match ← v.value with
  | .mapping entries =>
    v.handle.writeChild (.key key) item
    return Entries.get? key entries
  | _ => v.mismatch .mapping

/-- Removes the entry under a key of a mapping, if there is one: what was there. -/
def remove (v : View) (key : String) : Live (Option Value) := do
  match ← v.value with
  | .mapping entries =>
    if (Entries.get? key entries).isSome then return some (← v.handle.deleteChild (.key key))
    else return none
  | _ => v.mismatch .mapping

/-! ## Scalars -/

def boolean (v : View) : Live Bool := do
  match ← v.value with
  | .boolean b => return b
  | _ => v.mismatch .boolean

/-- The integer, if it is one of a signed word. -/
def integer (v : View) : Live Int64 := do
  match (← v.value).toSigned? with
  | some i => return i
  | none => v.mismatch .integer

def float (v : View) : Live Binary64 := do
  match (← v.value).toBinary64? with
  | some x => return x
  | none => v.mismatch .float

def string (v : View) : Live String := do
  match ← v.value with
  | .string s => return s
  | _ => v.mismatch .string

/-! ## Comparison -/

def equals (v : View) (other : Value) : Live Bool := do
  return (← v.value).equals other

/-- The order of the stored value and another, where there is one. -/
def order? (v : View) (other : Value) : Live (Option Ordering) := do
  return (← v.value).order? other

end View

end LiveDocument
