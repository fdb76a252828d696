import LiveDocument.Address.Segment
import LiveDocument.Value.Entries
import LiveDocument.Value.Basic

/-!
# Walking a value

A path is followed segment by segment. Mapping keys are always texts, so in a mapping a place
names the key that is spelled like it; a slice of a sequence makes a new sequence of the
selected elements, through which the walk can go on.

* `walk?_append`: a walk along two paths is a walk along one from where the other ended.
-/

namespace LiveDocument.Value

/-- The key that a segment names in a mapping. -/
def keyOf? : Segment → Option String
  | .key name => some name
  | .index place => some (String.ofList (Position.text place))
  | .slice _ => none

/-- The value one segment further in. -/
def step? (v : Value) (segment : Segment) : Option Value :=
  match v with
  | .mapping entries => (keyOf? segment).bind fun key => Entries.get? key entries
  | .sequence items =>
    match segment with
    | .index place => (Position.within? place items.length).bind fun p => items[p]?
    | .slice s => (s.places? items.length).map fun ps => .sequence (ps.filterMap (items[·]?))
    | .key _ => none
  | _ => none

/-- The value at the end of a path. -/
def walk? (v : Value) : Path → Option Value
  | [] => some v
  | segment :: rest => (v.step? segment).bind fun next => next.walk? rest

/-- The kind of the value at the end of a path. -/
def kindAt? (v : Value) (path : Path) : Option Kind :=
  (v.walk? path).map kind

theorem walk?_append (v : Value) (p q : Path) :
    v.walk? (p ++ q) = (v.walk? p).bind fun w => w.walk? q := by
  induction p generalizing v with
  | nil => rfl
  | cons segment rest ih =>
    simp only [List.cons_append, walk?]
    cases v.step? segment with
    | none => rfl
    | some next => exact ih next

/-- The path with every place of a sequence spelled by its distance from the start. Segments
from the point where the walk stops are kept as they are. -/
def concreteFrom : Option Value → Path → Path
  | _, [] => []
  | none, path => path
  | some v, segment :: rest =>
    let spelled : Segment :=
      match v, segment with
      | .sequence items, .index place =>
        match Position.within? place items.length with
        | some p => .index (Int64.ofInt p)
        | none => segment
      | _, _ => segment
    spelled :: concreteFrom (v.step? segment) rest

/-- The path with every place of a sequence spelled by its distance from the start. -/
def concrete (v : Value) (path : Path) : Path :=
  concreteFrom (some v) path

theorem length_concreteFrom (v : Option Value) (path : Path) :
    (concreteFrom v path).length = path.length := by
  induction path generalizing v with
  | nil => cases v <;> rfl
  | cons segment rest ih =>
    cases v with
    | none => rfl
    | some v => simp [concreteFrom, ih]

end LiveDocument.Value
