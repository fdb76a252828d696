import LiveDocument.Tree.Walk

/-!
# Editing a value

Writing and removing the entry at the end of a path. A write replaces an entry or adds a key to
a mapping that exists; it never makes the containers on the way, and no edit goes through a
slice.
-/

namespace LiveDocument.Value

/-- Stores a value under the last segment of a path. -/
def assign? (v : Value) (segment : Segment) (new : Value) : Option Value :=
  match v with
  | .mapping entries => (keyOf? segment).map fun key => .mapping (Entries.put key new entries)
  | .sequence items =>
    match segment with
    | .index place => (Position.within? place items.length).map fun p => .sequence (items.set p new)
    | _ => none
  | _ => none

/-- Takes the entry under the last segment of a path out: the entry, and what is left. -/
def takeOut? (v : Value) (segment : Segment) : Option (Value × Value) :=
  match v with
  | .mapping entries =>
    (keyOf? segment).bind fun key =>
      (Entries.get? key entries).map fun old => (old, .mapping (Entries.erase key entries))
  | .sequence items =>
    match segment with
    | .index place =>
      (Position.within? place items.length).bind fun p =>
        (items[p]?).map fun old => (old, .sequence (items.eraseIdx p))
    | _ => none
  | _ => none

/-- The value one segment further in, unless the segment is a slice. -/
def child? (v : Value) (segment : Segment) : Option Value :=
  if segment.isSlice then none else v.step? segment

/-- Writes a value at the end of a path. -/
def write? (v : Value) (new : Value) : Path → Option Value
  | [] => some new
  | [last] => v.assign? last new
  | segment :: rest =>
    (v.child? segment).bind fun inner =>
      (inner.write? new rest).bind fun changed => v.assign? segment changed

/-- Removes the entry at the end of a path: the entry, and what is left. The root cannot be
removed. -/
def remove? (v : Value) : Path → Option (Value × Value)
  | [] => none
  | [last] => v.takeOut? last
  | segment :: rest =>
    (v.child? segment).bind fun inner =>
      (inner.remove? rest).bind fun (old, changed) =>
        (v.assign? segment changed).map fun whole => (old, whole)

end LiveDocument.Value
