import LiveDocument.Handle.Basic
import LiveDocument.Document.Lookup
import LiveDocument.Json.Printer
import LiveDocument.Reference.Scan

/-!
# Expanding references

Every string of a value is replaced by what its references stand for. A string that is one
reference and nothing else but blanks becomes the value itself, whatever its kind; otherwise
each reference is replaced by a text. What a reference to a place stands for is expanded too,
with the addresses on the way to it remembered: a reference back to one of them is a cycle.
-/

namespace LiveDocument

namespace Value

/-- The text of a value inside another text. -/
def spliced : Value → List Char
  | .string s => s.toList
  | .null => ['N', 'o', 'n', 'e']
  | v => Json.compact v

section Substitution

variable {m : Type → Type} [Monad m]

mutual

/-- Replaces every string of a value. -/
def substitute (f : String → m Value) : Value → m Value
  | .string s => f s
  | .sequence items => do return .sequence (← substituteAll f items)
  | .mapping entries => do return .mapping (← substituteEntries f entries)
  | v => return v

def substituteAll (f : String → m Value) : List Value → m (List Value)
  | [] => return []
  | item :: items => do
    let v ← substitute f item
    return v :: (← substituteAll f items)

/-- Replaces every string of the values of the entries. -/
def substituteEntries (f : String → m Value) : List (String × Value) → m (List (String × Value))
  | [] => return []
  | (key, value) :: entries => do
    let v ← substitute f value
    return (key, v) :: (← substituteEntries f entries)

end

end Substitution

/-- The number of references to places in the strings of a value. -/
def referenceCount (v : Value) : Nat :=
  (v.strings.flatMap Reference.places).length

end Value

namespace Reference

/-- What a reference that stands alone among blanks is, if there is no other one. -/
def only? (ps : List Piece) : Option (Method × List Char) :=
  match ps.filter fun p => match p with
    | .char c => !Text.isBlank c
    | .reference _ _ _ => true with
  | [.reference method _ query] => some (method, query)
  | _ => none

def anyReference (ps : List Piece) : Bool :=
  ps.any fun p => match p with
    | .char _ => false
    | .reference _ _ _ => true

section Expansion

variable {m : Type → Type} [Monad m]

/-- The value of a variable, as a text; an unset one has a text too. -/
def variableValue (env : Environment) (name : String) : Value :=
  .string ((env.get? name).getD "None")

/-- What a reference stands for. -/
def valueOf (env : Environment) (dereference : String → m Value) (method : Method)
    (query : List Char) : m Value :=
  match method with
  | .variable => return variableValue env (String.ofList query)
  | .place => dereference (String.ofList query)

/-- The text of pieces whose references are replaced in their order. -/
def splice (env : Environment) (dereference : String → m Value) : List Piece → m (List Char)
  | [] => return []
  | .char c :: rest => do return c :: (← splice env dereference rest)
  | .reference method _ query :: rest => do
    let v ← valueOf env dereference method query
    return v.spliced ++ (← splice env dereference rest)

def expandText (env : Environment) (dereference : String → m Value) (s : String) : m Value :=
  let ps := pieces s.toList
  if !anyReference ps then return .string s
  else
    match only? ps with
    | some (method, query) => valueOf env dereference method query
    | none => do return .string (String.ofList (← splice env dereference ps))

end Expansion

/-- The stored values of handles. -/
def rawValues : List Handle → Live (List Value)
  | [] => return []
  | h :: hs => do
    let v ← h.rawValue
    return v :: (← rawValues hs)

/-- The stored value of a handle, or the sequence of the stored values of several. -/
def rawTogether : List Handle → Live Value
  | [h] => h.rawValue
  | hs => do return .sequence (← rawValues hs)

/-- Lets go of the handles that were not held before. -/
def release (held : List Nat) : Live Unit :=
  modify fun d => { d with arena := { d.arena with held := held } }

/-- The expanded value at the place that a query names: null if there is none, and a sequence
if there are several. The active addresses are those being expanded around this one; each
nested call has one more of them, and `fuel` exceeds the number of addresses there are. -/
def dereference (env : Environment) : (fuel : Nat) → (active : List String) → String → Live Value
  | 0, _, query => throw (.referenceCycle query)
  | fuel + 1, active, query => do
    let d ← get
    let a := d.addressOf (.text query)
    let canonical := a.canonical []
    if active.contains canonical then throw (.referenceCycle canonical)
    else
      match ← Live.resolve a [] d.settings.useCache with
      | [] => return .null
      | hs =>
        let raw ← rawTogether hs
        let expanded ←
          raw.substitute (expandText env (dereference env fuel (canonical :: active)))
        release d.arena.held
        return expanded

/-- Expands every reference in a value; the active addresses are those it was reached by. -/
def expand (env : Environment) (active : List String) (v : Value) : Live Value := do
  let d ← get
  let fuel := d.value.referenceCount + v.referenceCount + 1
  v.substitute (expandText env (dereference env fuel active))

end Reference

/-- The stored value of a handle with its references expanded. A reference back to the handle's
own place is a cycle. -/
def Handle.parsedValue (env : Environment) (h : Handle) : Live Value := do
  let raw ← h.rawValue
  let d ← get
  Reference.expand env [h.path.text d.delimiter] raw

/-- The whole value with its references expanded. -/
def Document.parsedValue (env : Environment) : Live Value := do
  let d ← get
  Reference.expand env [] d.value

end LiveDocument
