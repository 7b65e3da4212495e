import ZigCst.Text.Quoted

/-!
# Diagnostics

A diagnostic is a message about a range of a text.
-/

namespace ZigCst

inductive Severity where
  | error
  | warning
deriving DecidableEq, Repr

/-- A message about a range of a text. -/
structure Diagnostic where
  severity : Severity
  message : Text
  range : Range
deriving DecidableEq, Repr

/-- The diagnostic with its fields spelled out. -/
def Diagnostic.summary (d : Diagnostic) : Text :=
  let severity := match d.severity with
    | .error => "Error"
    | .warning => "Warning"
  "Diagnostic \x7b message: ".toList ++ d.message.quote ++ ", range: ".toList ++
    d.range.toText ++ ", severity: ".toList ++ severity.toList ++ " \x7d".toList

end ZigCst
