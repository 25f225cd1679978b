import I8080.Flags
import I8080.Instr.Text
import I8080.Register
import I8080.Window
import I8080.Word

namespace I8080

structure Registers where
  a : UInt8 := 0
  b : UInt8 := 0
  c : UInt8 := 0
  d : UInt8 := 0
  e : UInt8 := 0
  h : UInt8 := 0
  l : UInt8 := 0
  deriving DecidableEq

def Registers.get (rs : Registers) : Register → UInt8
  | .a => rs.a
  | .b => rs.b
  | .c => rs.c
  | .d => rs.d
  | .e => rs.e
  | .h => rs.h
  | .l => rs.l

def Registers.set (rs : Registers) (r : Register) (value : UInt8) : Registers :=
  match r with
  | .a => { rs with a := value }
  | .b => { rs with b := value }
  | .c => { rs with c := value }
  | .d => { rs with d := value }
  | .e => { rs with e := value }
  | .h => { rs with h := value }
  | .l => { rs with l := value }

theorem Registers.get_set (rs : Registers) (r q : Register) (value : UInt8) :
    (rs.set r value).get q = if q = r then value else rs.get q := by
  cases r <;> cases q <;> rfl

/-- The processor and its memory. The stack takes the memory from `sp` to the end of the window, so that
it is empty when `sp` stands just past the end. -/
structure Machine where
  registers : Registers := {}
  flags : Flags := {}
  memory : Image := .blank
  pc : Offset := Offset.wrap 0
  sp : Fin (windowSize + 1) := Fin.last windowSize
  halted : Bool := false
  deriving DecidableEq

/-- A machine that is about to run an image from its start. -/
def Machine.ofImage (image : Image) : Machine :=
  { memory := image }

/-- Why an instruction cannot be executed. Each fault names the place of the instruction. -/
inductive Fault where
  | unknownOpcode (opcode : UInt8) (pc : Offset)
  | addressOutOfRange (address : UInt16) (pc : Offset)
  deriving DecidableEq

def Fault.message : Fault → String
  | .unknownOpcode opcode pc =>
    "unrecognized opcode " ++ hexByte opcode ++ " at offset " ++ hexWord (UInt16.ofNat pc)
  | .addressOutOfRange address pc =>
    "address " ++ hexWord address ++ " is outside memory (instruction at offset " ++
      hexWord (UInt16.ofNat pc) ++ ")"

def Machine.outside (m : Machine) (address : UInt16) : Fault :=
  .addressOutOfRange address m.pc

def Machine.offsetOf (m : Machine) (address : UInt16) : Except Fault Offset :=
  match Offset.ofAddress? address with
  | some offset => .ok offset
  | none => .error (m.outside address)

def Machine.read (m : Machine) (address : UInt16) : Except Fault UInt8 :=
  (m.offsetOf address).map fun offset => m.memory[offset]

def Machine.write (m : Machine) (address : UInt16) (value : UInt8) : Except Fault Machine :=
  (m.offsetOf address).map fun offset => { m with memory := m.memory.set offset.val value offset.isLt }

def Machine.setRegister (m : Machine) (r : Register) (value : UInt8) : Machine :=
  { m with registers := m.registers.set r value }

/-- The value of a pair. The stack pointer reads as an address. -/
def Machine.pair (m : Machine) : RegPair → UInt16
  | .bc => Word.join m.registers.c m.registers.b
  | .de => Word.join m.registers.e m.registers.d
  | .hl => Word.join m.registers.l m.registers.h
  | .sp => addressOf m.sp
  | .psw => Word.join m.flags.toByte m.registers.a

/-- Sets a pair. The stack pointer takes an address of the window or the one just past its end. -/
def Machine.setPair (m : Machine) (pair : RegPair) (value : UInt16) : Except Fault Machine :=
  let low := Word.low value
  let high := Word.high value
  match pair with
  | .bc => .ok { m with registers := { m.registers with b := high, c := low } }
  | .de => .ok { m with registers := { m.registers with d := high, e := low } }
  | .hl => .ok { m with registers := { m.registers with h := high, l := low } }
  | .sp =>
    let offset := (value - windowBase).toNat
    if h : offset ≤ windowSize then .ok { m with sp := ⟨offset, Nat.lt_succ_of_le h⟩ }
    else .error (m.outside value)
  | .psw => .ok { m with registers := { m.registers with a := high }, flags := .ofByte low }

def Machine.load (m : Machine) : Loc → Except Fault UInt8
  | .reg r => .ok (m.registers.get r)
  | .mem => m.read (m.pair .hl)

def Machine.store (m : Machine) (loc : Loc) (value : UInt8) : Except Fault Machine :=
  match loc with
  | .reg r => .ok (m.setRegister r value)
  | .mem => m.write (m.pair .hl) value

/-- Moves the program counter to a wrapped offset. -/
def Machine.goto (m : Machine) (n : Nat) : Machine :=
  { m with pc := Offset.wrap n }

end I8080
