import LiveDocument.Document.Lookup

/-!
# Editing a document

An edit of the value ends the validity of handles. A write that changes the kind of a value, and
every removal, ends that of the handles issued for exactly the edited path. With cascading, all
handles below the edited place are checked as well, whichever way their paths spell the places
of a sequence: those that no longer lead to a value of the kind they were issued for end.
-/

namespace LiveDocument.Document

/-- Ends the validity of the handles issued for exactly this path. -/
def invalidatePath (d : Document) (path : Path) : Document :=
  { d with arena := d.arena.retireWhere fun t => decide (t.path = path) }

/-- A path leads to the place of another or below it, as spelled or as the value has it. -/
def leadsBelow (v : Value) (path top : Path) : Bool :=
  top.isPrefixOf path || (v.concrete top).isPrefixOf (v.concrete path)

/-- Ends the validity of the handles below a place that do not lead to a value of the kind they
were issued for. -/
def revalidateBelow (d : Document) (top : Path) : Document :=
  { d with
    arena := d.arena.retireWhere fun t =>
      leadsBelow d.value t.path top && decide (d.value.kindAt? t.path ≠ some t.kind) }

/-- Checks the handles below a place if the settings say so. -/
def cascadeBelow (d : Document) (top : Path) : Document :=
  if d.settings.cascade then d.revalidateBelow top else d

/-- Writes a value at a path, whose parent has to exist. -/
def write? (d : Document) (path : Path) (v : Value) : Option Document :=
  (d.value.write? v path).map fun changed =>
    let written := { d with value := changed }
    let ended :=
      if d.value.kindAt? path = some v.kind then written else written.invalidatePath path
    ended.cascadeBelow path

/-- Removes the entry at a path from its parent: the entry, and the document without it. -/
def remove? (d : Document) (path : Path) : Option (Value × Document) :=
  (d.value.remove? path).map fun (old, changed) =>
    (old, (({ d with value := changed }).invalidatePath path).cascadeBelow path.dropLast)

end LiveDocument.Document

namespace LiveDocument.Live

/-- Writes a value at a path; a failure names the path in the spelling of its context. -/
def write (path : Path) (delimiter : String) (v : Value) : Live Unit := do
  match (← get).write? path v with
  | some d => set d
  | none => throw (.writeTargetMissing (path.address delimiter))

def remove (path : Path) (delimiter : String) : Live Value := do
  match (← get).remove? path with
  | some (old, d) =>
    set d
    return old
  | none => throw (.writeTargetMissing (path.address delimiter))

/-- Writes a value at paths, one after the other. -/
def writeAll (delimiter : String) (v : Value) : List Path → Live Unit
  | [] => return ()
  | path :: rest => do
    write path delimiter v
    writeAll delimiter v rest

/-- The paths that a write at an address goes to: those it names or, when it names none, its own
full path. -/
def writePaths (root : Value) (a : Address) (context : Path) : List Path :=
  match root.locate? a context with
  | some (t :: rest) => (t :: rest).map Target.path
  | _ => [a.fullPath context]

/-- Writes a value at every place that an address names from a context. -/
def update (a : Address) (context : Path) (v : Value) : Live Unit := do
  let d ← get
  writeAll a.delimiter v (writePaths d.value a context)

end LiveDocument.Live

namespace LiveDocument.Document

/-- Writes a value at every place that a query names. -/
def set (query : Query) (v : Value) : Live Unit := do
  let d ← get
  Live.update (d.addressOf query) [] v

/-- Removes the entry that a query names. -/
def delete (query : Query) : Live Value := do
  let d ← get
  Live.remove ((d.addressOf query).fullPath []) d.delimiter

end LiveDocument.Document
