import LiveDocument.Failure
import LiveDocument.Text.Blank

/-!
# Settings

How a document spells its addresses, and whether its lookups and edits go through the cache of
handles. Variables of the environment override single settings.
-/

namespace LiveDocument

/-- The settings of a document. -/
structure Settings where
  /-- What stands between the segments of an address. -/
  delimiter : String := "/"
  /-- Whether lookups answer with the handles that are already held. -/
  useCache : Bool := true
  /-- Whether edits check the handles below the edited place. -/
  cascade : Bool := true
  deriving DecidableEq

/-- The variables that a program is run with. -/
abbrev Environment := List (String × String)

def Environment.get? (env : Environment) (name : String) : Option String :=
  (env.find? fun entry => entry.1 == name).map Prod.snd

namespace Settings

/-- An empty delimiter is refused. -/
def validate (s : Settings) : Except Failure Settings :=
  if s.delimiter.isEmpty then .error (.settings "delimiter must not be empty") else .ok s

/-- The name of the variable that overrides the delimiter. -/
def delimiterVariable : String := "RFX_DELIMITER"

/-- The name of the variable that overrides the use of the cache. -/
def useCacheVariable : String := "RFX_USE_CACHE"

/-- The name of the variable that overrides cascading. -/
def cascadeVariable : String := "RFX_CASCADE"

/-- The switch that a word means, whatever its case and the blanks around it. -/
def readSwitch (name raw : String) : Except Failure Bool :=
  let word := String.ofList ((Text.trim raw.toList).map Char.toLower)
  if word = "1" ∨ word = "true" ∨ word = "yes" ∨ word = "on" then .ok true
  else if word = "0" ∨ word = "false" ∨ word = "no" ∨ word = "off" then .ok false
  else .error (.settings ("invalid bool for " ++ name ++ ": " ++ raw))

/-- A switch, or the value that overrides it. -/
def overrideSwitch (env : Environment) (name : String) (current : Bool) : Except Failure Bool :=
  match env.get? name with
  | some raw => readSwitch name raw
  | none => .ok current

/-- The settings with the overrides of an environment. -/
def override (s : Settings) (env : Environment) : Except Failure Settings := do
  let delimiter := (env.get? delimiterVariable).getD s.delimiter
  let useCache ← overrideSwitch env useCacheVariable s.useCache
  let cascade ← overrideSwitch env cascadeVariable s.cascade
  validate ⟨delimiter, useCache, cascade⟩

end Settings

end LiveDocument
