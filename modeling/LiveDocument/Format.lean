import LiveDocument.Json.Printer
import LiveDocument.Yaml.Printer

/-!
# Formats

The forms in which a value is written.
-/

namespace LiveDocument

/-- Compact JSON, indented JSON or YAML. -/
inductive Format where
  | json
  | pretty
  | yaml
  deriving DecidableEq

def Format.render : Format → Value → String
  | json, v => Json.render v
  | pretty, v => Json.renderIndented v
  | yaml, v => Yaml.render v

end LiveDocument
