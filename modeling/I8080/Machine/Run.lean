import I8080.Machine.Step

namespace I8080

/-- Why a run is over. -/
inductive Ending where
  | halted
  | limit
  | fault (f : Fault)
  deriving DecidableEq

/-- An instruction that was executed and where it stood. -/
structure Traced where
  pc : Offset
  instr : Instr
  deriving DecidableEq

/-- How a run ended, and what it executed until then. -/
structure Run where
  machine : Machine
  trace : Array Traced
  ending : Ending

def Machine.runFrom (trace : Array Traced) : Nat → Machine → Run
  | 0, m => ⟨m, trace, if m.halted then .halted else .limit⟩
  | limit + 1, m =>
    match m.step with
    | .ok (.executed i next) => Machine.runFrom (trace.push ⟨m.pc, i⟩) limit next
    | .ok .halted => ⟨m, trace, .halted⟩
    | .error f => ⟨m, trace, .fault f⟩

/-- Steps a machine until it halts or fails, but at most `limit` times. -/
def Machine.run (m : Machine) (limit : Nat) : Run :=
  Machine.runFrom #[] limit m

def Run.executed (r : Run) : Nat :=
  r.trace.size

end I8080
