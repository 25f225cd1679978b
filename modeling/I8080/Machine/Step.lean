import I8080.Instr.Encoding
import I8080.Machine.Execute

namespace I8080

/-- The instruction at the program counter. One that begins at the end of the window goes on at its start. -/
def Machine.fetch (m : Machine) : Except Fault Instr :=
  let opcode := m.memory[m.pc]
  match Instr.decode opcode (m.memory.wrapped (m.pc + 1)) (m.memory.wrapped (m.pc + 2)) with
  | some i => .ok i
  | none => .error (.unknownOpcode opcode m.pc)

/-- A step of a machine: one instruction, or none when it has halted. -/
inductive Step where
  | executed (i : Instr) (next : Machine)
  | halted

def Machine.step (m : Machine) : Except Fault Step :=
  if m.halted then .ok .halted
  else do
    let i ← m.fetch
    return .executed i (← m.execute i)

def Machine.next (m : Machine) : Except Fault Machine := do
  match ← m.step with
  | .executed _ next => return next
  | .halted => return m

end I8080
