import I8080.AsmError
import I8080.Source.Span

namespace I8080

/-- An error and the source text to blame for it. -/
structure Complaint where
  span : Span
  error : AsmError
  deriving DecidableEq

/-- A complaint about a numbered source line. -/
structure Diagnostic extends Complaint where
  line : Nat
  deriving DecidableEq

def Diagnostic.text (d : Diagnostic) : String :=
  "line " ++ toString d.line ++ ": " ++ d.error.message

end I8080
