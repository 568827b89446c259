import HeaderPeers.Location

/-!
# Diagnostics

Problems that reading recovers from.
-/

namespace HeaderPeers

inductive Severity where
  | error
  | warning
  | info
deriving DecidableEq, Repr

namespace Severity

def text : Severity → String
  | error => "error"
  | warning => "warning"
  | info => "info"

end Severity

/-- A problem with the place it was found at, if there is one, and advice. -/
structure Diagnostic where
  severity : Severity
  message : String
  location : Option Location := none
  help : Option String := none
deriving DecidableEq, Repr

namespace Diagnostic

def warning (location : Location) (message : String) : Diagnostic :=
  { severity := .warning, message, location := some location }

/-- The message behind its place. -/
def text (d : Diagnostic) : String :=
  match d.location with
  | some location => location.text ++ ": " ++ d.message
  | none => d.message

def isError (d : Diagnostic) : Bool :=
  d.severity == .error

end Diagnostic

end HeaderPeers
