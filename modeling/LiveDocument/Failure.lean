import LiveDocument.Value.Basic

/-!
# Failures

Why an operation did not succeed, and how that is said. An address that does not resolve is no
failure: it has no results.
-/

namespace LiveDocument

/-- The causes of failure. -/
inductive Failure where
  /-- A handle whose value changed kind or was removed. -/
  | invalidReference (address : String)
  /-- A write or a removal below something that does not exist. -/
  | writeTargetMissing (address : String)
  /-- A value without the shape that an operation needs. -/
  | typeConversion (expected found : Kind)
  /-- A required address that resolved to nothing. -/
  | missingMember (address : String)
  /-- A reference that leads back to an address being expanded. -/
  | referenceCycle (address : String)
  /-- A text that is not JSON. -/
  | malformedJson
  /-- A text that is not YAML, or not YAML of the expected shape. -/
  | malformedYaml
  /-- A file that could not be read or written. -/
  | inaccessible (path : String)
  /-- Settings that cannot be used. -/
  | settings (reason : String)
  deriving DecidableEq

def Failure.message : Failure → String
  | invalidReference address =>
    "reference to `" ++ address ++ "` is no longer valid: its value changed type or was removed"
  | writeTargetMissing address =>
    "cannot write `" ++ address ++ "`: the parent path does not exist"
  | typeConversion expected found =>
    "cannot convert " ++ found.text ++ " value to " ++ expected.text
  | missingMember address => "no member at `" ++ address ++ "`"
  | referenceCycle address =>
    "reference cycle detected while expanding `" ++ address ++ "`"
  | malformedJson => "JSON error: malformed text"
  | malformedYaml => "YAML error: malformed text"
  | inaccessible path => "IO error when accessing `" ++ path ++ "`"
  | settings reason => "settings error: " ++ reason

end LiveDocument
