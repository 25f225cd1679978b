import I8080.Instr.Encoding
import I8080.Instr.Text
import I8080.Machine.Run
import I8080.Text.Format
import I8080.Window

namespace I8080

/-- The trace line of an instruction: where it stood, its bytes, its text. -/
def traceLine (pc : Offset) (i : Instr) : String :=
  hexWord (addressOf pc) ++ "  " ++ Column.left 8 (Hex.row i.encode) ++ "  " ++ i.toText ++ "\n"

def Traced.line (t : Traced) : String :=
  traceLine t.pc t.instr

/-- The trace of a run, one line for each instruction that was executed. -/
def Run.traceLines (r : Run) : List String :=
  r.trace.toList.map Traced.line

theorem Run.length_traceLines (r : Run) : r.traceLines.length = r.executed := by
  simp [Run.traceLines, Run.executed]

end I8080
