import I8080.Instr
import I8080.Machine.Arithmetic
import I8080.Machine.Stack

namespace I8080

/-- Does an operation between the accumulator and a byte. -/
def Machine.accumulate (m : Machine) (op : AluOp) (value : UInt8) : Machine :=
  let (a, flags) := op.apply m.flags.carry m.registers.a value
  { m.setRegister .a a with flags }

def Machine.rotate (m : Machine) (a : UInt8) (carry : Bool) : Machine :=
  { m.setRegister .a a with flags := { m.flags with carry } }

/-- Counts a location on by `delta`. -/
def Machine.count (m : Machine) (loc : Loc) (delta : UInt16) : Except Fault Machine := do
  let raw := (← m.load loc).toUInt16 + delta
  let stored ← m.store loc raw.toUInt8
  return { stored with flags := m.flags.counted raw }

def Machine.addToHl (m : Machine) (value : UInt16) : Except Fault Machine := do
  let hl := m.pair .hl
  let sum ← m.setPair .hl (hl + value)
  return { sum with flags := { m.flags with carry := 0xFFFF < hl.toNat + value.toNat } }

/-- What an instruction does to registers, flags, memory and stack. A transfer of control does nothing
here. -/
def Machine.perform (m : Machine) (i : Instr) : Except Fault Machine :=
  let a := m.registers.a
  match i with
  | .hlt => .ok { m with halted := true }
  | .mov dest src => do m.store dest (← m.load src)
  | .mvi dest value => m.store dest value
  | .lxi pair value => m.setPair pair value
  | .lda address => do return m.setRegister .a (← m.read address)
  | .sta address => m.write address a
  | .lhld address => do
    let low ← m.read address
    let high ← m.read (address + 1)
    m.setPair .hl (Word.join low high)
  | .shld address => do (← m.write address m.registers.l).write (address + 1) m.registers.h
  | .ldax pair => do return m.setRegister .a (← m.read (m.pair pair))
  | .stax pair => m.write (m.pair pair) a
  | .xchg => do (← m.setPair .de (m.pair .hl)).setPair .hl (m.pair .de)
  | .alu op src => do return m.accumulate op (← m.load src)
  | .aluImmediate op value => .ok (m.accumulate op value)
  | .inr loc => m.count loc 1
  | .dcr loc => m.count loc (-1)
  | .inx pair => m.setPair pair (m.pair pair + 1)
  | .dcx pair => m.setPair pair (m.pair pair - 1)
  | .dad pair => m.addToHl (m.pair pair)
  | .daa =>
    let (sum, flags) := decimalAdjust m.flags a
    .ok { m.setRegister .a sum with flags }
  | .cma => .ok (m.setRegister .a (~~~a))
  | .cmc => .ok { m with flags := { m.flags with carry := !m.flags.carry } }
  | .stc => .ok { m with flags := { m.flags with carry := true } }
  | .rlc => .ok (m.rotate (shiftLeft a (highBit a)) (highBit a))
  | .rrc => .ok (m.rotate (shiftRight (lowBit a) a) (lowBit a))
  | .ral => .ok (m.rotate (shiftLeft a m.flags.carry) (highBit a))
  | .rar => .ok (m.rotate (shiftRight m.flags.carry a) (lowBit a))
  | .push pair => m.push (m.pair pair)
  | .pop pair => do
    let (value, popped) ← m.pop
    popped.setPair pair value
  | .xthl => do
    let (top, popped) ← m.pop
    (← popped.push (m.pair .hl)).setPair .hl top
  | .sphl => m.setPair .sp (m.pair .hl)
  | .nop | .jmp _ | .jmpIf .. | .call _ | .callIf .. | .ret | .retIf _ | .rst _ | .pchl => .ok m

def Machine.jump (m : Machine) (address : UInt16) : Except Fault Machine :=
  (m.offsetOf address).map fun offset => m.goto offset

/-- Leaves the address of `next` on the stack. A target outside the window is refused before that. -/
def Machine.call (m : Machine) (next : Offset) (address : UInt16) : Except Fault Machine := do
  let target ← m.offsetOf address
  return (← m.push (addressOf next)).goto target

def Machine.ret (m : Machine) : Except Fault Machine := do
  let (address, popped) ← m.pop
  popped.jump address

/-- Moves the program counter on from an instruction, to where it transfers control or else to `next`. -/
def Machine.transfer (m : Machine) (next : Offset) : Instr → Except Fault Machine
  | .jmp address => m.jump address
  | .jmpIf condition address => if condition.holds m.flags then m.jump address else .ok (m.goto next)
  | .call address => m.call next address
  | .callIf condition address => if condition.holds m.flags then m.call next address else .ok (m.goto next)
  | .ret => m.ret
  | .retIf condition => if condition.holds m.flags then m.ret else .ok (m.goto next)
  | .rst vector => (m.push (addressOf next)).map fun pushed => pushed.goto (8 * vector.val)
  | .pchl => m.jump (m.pair .hl)
  | _ => .ok (m.goto next)

/-- The offset past an instruction at the program counter. -/
def Machine.past (m : Machine) (i : Instr) : Offset :=
  Offset.wrap (m.pc + i.size)

/-- Executes an instruction as if it stood at the program counter, all of it or nothing. -/
def Machine.execute (m : Machine) (i : Instr) : Except Fault Machine := do
  (← m.perform i).transfer (m.past i) i

end I8080
