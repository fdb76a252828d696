import LiveDocument.Settings.Basic
import LiveDocument.Yaml.Printer
import LiveDocument.Yaml.Reader

/-!
# Settings files

Settings are kept as a YAML mapping. Settings that it does not hold are the usual ones, so an
empty file is all of them; entries of other names are passed over, whatever their values are.
-/

namespace LiveDocument.Settings

/-- The names of the entries. -/
def delimiterKey : String := "delimiter"

/-- The name of the entry for the use of the cache. -/
def useCacheKey : String := "use_cache"

/-- The name of the entry for cascading. -/
def cascadeKey : String := "cascade_invalidation"

def toValue (s : Settings) : Value :=
  .mapping
    [(delimiterKey, .string s.delimiter), (useCacheKey, .boolean s.useCache),
      (cascadeKey, .boolean s.cascade)]

def toText (s : Settings) : Except Failure String :=
  s.validate.map fun s => Yaml.render s.toValue

/-- The entries found so far. -/
structure Found where
  delimiter : Option String := none
  useCache : Option Bool := none
  cascade : Option Bool := none

open Yaml in
/-- Reads a switch: a plain scalar, or a literal one with the tag of booleans. -/
def readBoolean (a : Anchors) (node : Node) : Follow Bool := do
  match ← follow a node with
  | .scalar _ tag text style =>
    if style = .plain ∨ (style = .literal ∧ tag = some (Tag.core "bool")) then
      liftM (boolean? text)
    else reject
  | _ => reject

open Yaml in
/-- Reads the entries of a settings file; none may occur twice. -/
def readFound (a : Anchors) : Found → List (Node × Node) → Follow Found
  | found, [] => return found
  | found, (key, value) :: entries => do
    let name ← keyText a key
    if name = delimiterKey then
      if found.delimiter.isSome then reject
      else readFound a { found with delimiter := some (← keyText a value) } entries
    else if name = useCacheKey then
      if found.useCache.isSome then reject
      else readFound a { found with useCache := some (← readBoolean a value) } entries
    else if name = cascadeKey then
      if found.cascade.isSome then reject
      else readFound a { found with cascade := some (← readBoolean a value) } entries
    else readFound a found entries

/-- The settings of a file's tree: a mapping, or nothing at all. -/
def ofNode? (root : Yaml.Node) : Option Settings :=
  let usual : Settings := {}
  match root with
  | .mapping _ _ entries =>
    ((readFound (Yaml.Anchors.ofRoot root) {} entries).run 0).map fun (found, _) =>
      ⟨found.delimiter.getD usual.delimiter, found.useCache.getD usual.useCache,
        found.cascade.getD usual.cascade⟩
  | .scalar _ _ [] _ => some usual
  | _ => none

def ofText (text : String) : Except Failure Settings :=
  if text.toList.all Text.isBlank then .ok {}
  else
    match (Yaml.node? text.toList).bind ofNode? with
    | some s => s.validate
    | none => .error .malformedYaml

end LiveDocument.Settings
