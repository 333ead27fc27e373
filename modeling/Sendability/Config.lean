/-
  Configuration of the checker.

  The pass is on or off, and race diagnostics are errors or warnings. A
  configuration comes from a JSON object with at most these two keys; values
  are checked when they are taken over, the switch before the severity.
-/
import Sendability.Json.Writer
import Sendability.Ordering

namespace Sendability

/-- Configuration of the checker. -/
structure Config where
  enabled : Bool := true
  severity : Text := "error"
  deriving DecidableEq, Inhabited

/-- The severities that race diagnostics can have. -/
def severities : List Text := ["error", "warning"]

/-- Why a configuration was refused. -/
inductive ConfigFault where
  /-- The document is not an object. -/
  | notObject
  /-- The object has keys that mean nothing. -/
  | unknownKeys (keys : List Text)
  /-- The switch is neither on nor off. -/
  | badEnabled (value : Json)
  /-- The severity is none of the known ones. -/
  | badSeverity (value : Json)
  /-- The file could not be read. -/
  | unreadable (path reason : Text)
  /-- The file is not a JSON document. -/
  | invalidJson (path reason : Text)
  deriving Inhabited

/-- The text of a fault. -/
def ConfigFault.message : ConfigFault → Text
  | .notObject => "configuration must be a JSON object"
  | .unknownKeys keys => "unknown configuration key(s): " ++ Text.joined ", " keys
  | .badEnabled v => "'enabled' must be a boolean, got " ++ v.display
  | .badSeverity v =>
    "'severity' must be one of " ++ Text.joined ", " severities ++ ", got " ++ v.display
  | .unreadable path reason => "cannot read configuration '" ++ path ++ "': " ++ reason
  | .invalidJson path reason => "invalid JSON in configuration '" ++ path ++ "': " ++ reason

/-- The number of levels below the value that a fault shows. -/
def ConfigFault.nesting : ConfigFault → Nat
  | .badEnabled v | .badSeverity v => v.nesting
  | .notObject | .unknownKeys _ | .unreadable .. | .invalidJson .. => 0

namespace Config

/-- A switch. -/
def readEnabled : Json → Except ConfigFault Bool
  | .bool b => .ok b
  | v => .error (.badEnabled v)

/-- A severity. -/
def readSeverity : Json → Except ConfigFault Text
  | .str s => if s ∈ severities then .ok s else .error (.badSeverity (.str s))
  | v => .error (.badSeverity v)

/-- A configuration with some values replaced; a value that is not given stays. -/
def withOverrides (c : Config) (enabled severity : Option Json) : Except ConfigFault Config := do
  let enabled ← match enabled with
    | some v => readEnabled v
    | none => pure c.enabled
  let severity ← match severity with
    | some v => readSeverity v
    | none => pure c.severity
  return { enabled, severity }

/-- The keys of a configuration object. -/
def knownKeys : List Text := ["enabled", "severity"]

/-- The configuration that a document describes. -/
def ofJson : Json → Except ConfigFault Config
  | .obj members =>
    match (members.map Prod.fst).filter (· ∉ knownKeys) with
    | [] =>
      let doc := Json.obj members
      withOverrides {} (doc.member? "enabled") (doc.member? "severity")
    | unknown => .error (.unknownKeys (sortText unknown))
  | _ => .error .notObject

end Config

end Sendability
