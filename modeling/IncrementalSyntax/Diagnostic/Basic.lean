import IncrementalSyntax.Text.Change
import IncrementalSyntax.Diagnostic.Code

/-!
# Diagnostics

A diagnostic lives in a token, at an offset from the start of the token with its leading trivia, so
that the token can be shared between trees. A report is the same diagnostic in one particular text.

## Main definitions

* `Diagnostic`: a diagnostic relative to its token
* `Report`: a diagnostic in a text, with its message
* `Diagnostic.reportAt`: the report of a diagnostic whose token starts at an offset
-/

namespace IncrementalSyntax

/-- **Diagnostic.** What is wrong with a token, and where, counted from the start of its leading
trivia. -/
structure Diagnostic where
  code : Code
  severity : Severity
  offset : Nat
  length : Nat
  args : List String
  deriving DecidableEq, Repr

namespace Diagnostic

/-- A diagnostic of the severity that its code has. -/
def ofCode (code : Code) (offset length : Nat) (args : List String) : Diagnostic :=
  ⟨code, code.severity, offset, length, args⟩

def message (d : Diagnostic) : String := d.code.message d.args

/-- The diagnostic moved to the right. -/
def shift (d : Diagnostic) (amount : Nat) : Diagnostic := { d with offset := d.offset + amount }

end Diagnostic

/-- **Report.** A diagnostic at a range of a text, with its message. -/
structure Report where
  code : Code
  severity : Severity
  range : Range
  message : String
  deriving DecidableEq, Repr

/-- The report of a diagnostic whose token starts at `start`. -/
def Diagnostic.reportAt (d : Diagnostic) (start : Nat) : Report :=
  ⟨d.code, d.severity, ⟨start + d.offset, d.length⟩, d.message⟩

/-- The report as one line. -/
def Report.render (r : Report) : String :=
  r.severity.label ++ " " ++ r.code.label ++ ": " ++ r.message ++ " at " ++ r.range.render

end IncrementalSyntax
