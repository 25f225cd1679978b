import I8080.Machine.Step

namespace I8080

/-- The machine as registers hold it. Its counters are words, and nothing in their type keeps them to the
window. -/
structure WordMachine where
  registers : Registers := {}
  flags : Flags := {}
  memory : Image := .blank
  pc : UInt16 := 0
  sp : UInt16 := UInt16.ofNat windowSize
  halted : Bool := false

inductive WordFault where
  | unknownOpcode (opcode : UInt8) (pc : UInt16)
  | addressOutOfRange (address pc : UInt16)

/-- Work on a machine in place. A fault leaves it as far as the work has come. The work has no outcome at all
when it goes out of the bounds of memory or of a word. -/
abbrev Process (α : Type) : Type :=
  ExceptT WordFault (StateT WordMachine Option) α

namespace Process

def exec {α : Type} (p : Process α) (w : WordMachine) : Option (Except WordFault α × WordMachine) :=
  StateT.run (ExceptT.run p) w

def trap {α : Type} : Process α :=
  ExceptT.lift (StateT.lift none)

/-- The sum of two words, which has to be a word. -/
def add (x y : UInt16) : Process UInt16 :=
  if x.toNat + y.toNat < 65536 then pure (x + y) else trap

/-- The byte in memory at an offset, which has to lie in the window. -/
def byteIn (offset : Nat) : Process UInt8 := do
  let w ← get
  if h : offset < windowSize then return w.memory[offset] else trap

def setByteIn (offset : Nat) (value : UInt8) : Process Unit := do
  let w ← get
  if h : offset < windowSize then set { w with memory := w.memory.set offset value h } else trap

def outside {α : Type} (address : UInt16) : Process α := do
  let w ← get
  throw (.addressOutOfRange address w.pc)

def wrap (offset : Nat) : UInt16 :=
  UInt16.ofNat (offset % windowSize)

def setPc (pc : UInt16) : Process Unit :=
  modify fun w => { w with pc := wrap pc.toNat }

def offsetOf (address : UInt16) : Process UInt16 :=
  if (address - windowBase).toNat < windowSize then pure (address - windowBase) else outside address

/-- The byte at a wrapped offset. -/
def byteAt (offset : UInt16) : Process UInt8 :=
  byteIn (wrap offset.toNat).toNat

def read (address : UInt16) : Process UInt8 := do
  let offset ← offsetOf address
  byteIn offset.toNat

def write (address : UInt16) (value : UInt8) : Process Unit := do
  let offset ← offsetOf address
  setByteIn offset.toNat value

def setRegister (r : Register) (value : UInt8) : Process Unit :=
  modify fun w => { w with registers := w.registers.set r value }

def setFlags (flags : Flags) : Process Unit :=
  modify fun w => { w with flags }

def setCarry (carry : Bool) : Process Unit :=
  modify fun w => { w with flags := { w.flags with carry } }

def pair (p : RegPair) : Process UInt16 := do
  let w ← get
  return match p with
  | .bc => Word.join w.registers.c w.registers.b
  | .de => Word.join w.registers.e w.registers.d
  | .hl => Word.join w.registers.l w.registers.h
  | .sp => windowBase + w.sp
  | .psw => Word.join w.flags.toByte w.registers.a

def setPair (p : RegPair) (value : UInt16) : Process Unit :=
  let low := Word.low value
  let high := Word.high value
  match p with
  | .bc => modify fun w => { w with registers := { w.registers with b := high, c := low } }
  | .de => modify fun w => { w with registers := { w.registers with d := high, e := low } }
  | .hl => modify fun w => { w with registers := { w.registers with h := high, l := low } }
  | .sp =>
    if (value - windowBase).toNat ≤ windowSize then modify fun w => { w with sp := value - windowBase }
    else outside value
  | .psw => modify fun w => { w with registers := { w.registers with a := high }, flags := .ofByte low }

def load (loc : Loc) : Process UInt8 :=
  match loc with
  | .reg r => do return (← get).registers.get r
  | .mem => do read (← pair .hl)

def store (loc : Loc) (value : UInt8) : Process Unit :=
  match loc with
  | .reg r => setRegister r value
  | .mem => do write (← pair .hl) value

/-- Pushes a byte. The stack pointer has moved before the byte is written. -/
def pushByte (value : UInt8) : Process Unit := do
  let w ← get
  if w.sp = 0 then outside (windowBase - 1)
  else
    modify fun w => { w with sp := w.sp - 1 }
    setByteIn (w.sp - 1).toNat value

def popByte : Process UInt8 := do
  let w ← get
  if h : w.sp.toNat < windowSize then
    let sp ← add w.sp 1
    modify fun w => { w with sp }
    return w.memory[w.sp.toNat]
  else outside (windowBase + w.sp)

def pushWord (value : UInt16) : Process Unit := do
  pushByte (Word.high value)
  pushByte (Word.low value)

def popWord : Process UInt16 := do
  let low ← popByte
  let high ← popByte
  return Word.join low high

/-- The bytes from the stack pointer to the end of memory, which may not lie before it. -/
def stack : Process (List UInt8) := do
  let w ← get
  if w.sp.toNat ≤ windowSize then return w.memory.toList.drop w.sp.toNat else trap

def decodeAt (pc : UInt16) (opcode low high : UInt8) : Process Instr :=
  match Instr.decode opcode low high with
  | some i => pure i
  | none => throw (.unknownOpcode opcode pc)

def fetch : Process Instr := do
  let w ← get
  let opcode ← byteAt w.pc
  let low ← byteAt (← add w.pc 1)
  let high ← byteAt (← add w.pc 2)
  decodeAt w.pc opcode low high

def accumulate (op : AluOp) (value : UInt8) : Process Unit := do
  let w ← get
  let (a, flags) := op.apply w.flags.carry w.registers.a value
  setFlags flags
  setRegister .a a

def rotate (f : UInt8 → Bool → UInt8 × Bool) : Process Unit := do
  let w ← get
  let (a, carry) := f w.registers.a w.flags.carry
  setRegister .a a
  setCarry carry

def count (loc : Loc) (delta : UInt16) : Process Unit := do
  let raw := (← load loc).toUInt16 + delta
  store loc raw.toUInt8
  modify fun w => { w with flags := w.flags.counted raw }

/-- What an instruction does to registers, flags, memory and stack, part by part. -/
def perform : Instr → Process Unit
  | .hlt => modify fun w => { w with halted := true }
  | .mov dest src => do store dest (← load src)
  | .mvi dest value => store dest value
  | .lxi p value => setPair p value
  | .lda address => do setRegister .a (← read address)
  | .sta address => do write address (← load (.reg .a))
  | .lhld address => do
    let low ← read address
    let high ← read (address + 1)
    setRegister .l low
    setRegister .h high
  | .shld address => do
    write address (← load (.reg .l))
    write (address + 1) (← load (.reg .h))
  | .ldax p => do setRegister .a (← read (← pair p))
  | .stax p => do write (← pair p) (← load (.reg .a))
  | .xchg => do
    let de ← pair .de
    let hl ← pair .hl
    setPair .de hl
    setPair .hl de
  | .alu op src => do accumulate op (← load src)
  | .aluImmediate op value => accumulate op value
  | .inr loc => count loc 1
  | .dcr loc => count loc (-1)
  | .inx p => do setPair p ((← pair p) + 1)
  | .dcx p => do setPair p ((← pair p) - 1)
  | .dad p => do
    let hl ← pair .hl
    let value ← pair p
    setPair .hl (hl + value)
    setCarry (0xFFFF < hl.toNat + value.toNat)
  | .daa => do
    let w ← get
    let (sum, flags) := decimalAdjust w.flags w.registers.a
    setRegister .a sum
    setFlags flags
  | .cma => do setRegister .a (~~~(← load (.reg .a)))
  | .cmc => do setCarry (!(← get).flags.carry)
  | .stc => setCarry true
  | .rlc => rotate fun a _ => (shiftLeft a (highBit a), highBit a)
  | .rrc => rotate fun a _ => (shiftRight (lowBit a) a, lowBit a)
  | .ral => rotate fun a carry => (shiftLeft a carry, highBit a)
  | .rar => rotate fun a carry => (shiftRight carry a, lowBit a)
  | .push p => do pushWord (← pair p)
  | .pop p => do setPair p (← popWord)
  | .xthl => do
    let top ← popWord
    pushWord (← pair .hl)
    setPair .hl top
  | .sphl => do setPair .sp (← pair .hl)
  | .nop | .jmp _ | .jmpIf .. | .call _ | .callIf .. | .ret | .retIf _ | .rst _ | .pchl => pure ()

def call (next address : UInt16) : Process UInt16 := do
  let target ← offsetOf address
  pushWord (windowBase + next)
  return target

def ret : Process UInt16 := do
  offsetOf (← popWord)

/-- Where an instruction goes on, to the offset `next` unless it transfers control. -/
def transfer (next : UInt16) : Instr → Process UInt16
  | .jmp address => offsetOf address
  | .jmpIf condition address => do
    if condition.holds (← get).flags then offsetOf address else return next
  | .call address => call next address
  | .callIf condition address => do
    if condition.holds (← get).flags then call next address else return next
  | .ret => ret
  | .retIf condition => do
    if condition.holds (← get).flags then ret else return next
  | .rst vector => do
    pushWord (windowBase + next)
    return UInt16.ofNat (8 * vector.val)
  | .pchl => do offsetOf (← pair .hl)
  | _ => return next

def execute (i : Instr) : Process Unit := do
  let w ← get
  let past ← add w.pc (UInt16.ofNat i.size)
  perform i
  setPc (← transfer (wrap past.toNat) i)

/-- Works on a copy of the machine, and puts the copy in its place only if the work comes off. -/
def onCopy (p : Process Unit) : Process Unit := do
  let w ← get
  match p.exec w with
  | some (.ok (), next) => set next
  | some (.error fault, _) => throw fault
  | none => trap

/-- Executes the instruction at the program counter, if the machine has not halted. -/
def step : Process (Option Instr) := do
  let w ← get
  if w.halted then return none
  else
    let i ← fetch
    onCopy (execute i)
    return some i

/-- The machine after a step, which is taken on a copy. -/
def next : Process WordMachine := do
  let w ← get
  match step.exec w with
  | some (.ok _, next) => return next
  | some (.error fault, _) => throw fault
  | none => trap

end Process

end I8080
